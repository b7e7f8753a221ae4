import OutOfLine.Proofs.Signature.Boundary
import OutOfLine.Proofs.Splice.Trace

/-! The declaration and the definition of a helper have the same characters outside comments, but
for white space and for the default arguments, which only the declaration has. -/

namespace OutOfLine
open String (utf8EncodeChar)
open Cell Traced

namespace Signature

/-- `collapseFrom`, with the offset of each byte. `last` is the last byte that was written. -/
def collapseTraced (pending : Bool) (last : Option Byte) : List Traced → List Traced
  | [] => []
  | t :: traced =>
    if isGap t.cell then collapseTraced last.isSome last traced
    else put (uniform .code (spacing pending last.toList t.cell.byte)) ++
      t :: collapseTraced false (some t.cell.byte) traced

theorem collapseFrom_erase (pending : Bool) (written : Bytes) (traced : List Traced) :
    collapseFrom pending written (erase traced) =
      written.reverse ++ bytes (erase (collapseTraced pending written.head? traced)) := by
  induction traced generalizing pending written with
  | nil => simp [collapseFrom, collapseTraced, erase]
  | cons t traced ih =>
    have waiting : (written != []) = written.head?.isSome := by cases written <;> rfl
    have spaces : spacing pending written.head?.toList t.cell.byte = spacing pending written t.cell.byte := by
      cases written <;> rfl
    rw [erase, List.map_cons, ← erase, collapseFrom_cons, collapseTraced]
    split
    · rw [ih, waiting]
    · rw [ih, spaces]
      unfold spacing
      split <;> simp [erase, put]

def declared (sig : Signature) (edits : List Splice) : List Traced :=
  collapseTraced false none (Splice.trace sig.cells edits)

theorem bytes_declared (sig : Signature) (edits : List Splice) :
    bytes (erase (sig.declared edits)) = sig.renderCollapsed edits := by
  have made := collapseFrom_erase false [] (Splice.trace sig.cells edits)
  rw [Splice.erase_trace] at made
  exact made.symm

theorem collapseTraced_gaps {block : List Traced} (gaps : ∀ t ∈ block, isGap t.cell = true)
    (some_text : block ≠ []) (pending : Bool) (last : Option Byte) (rest : List Traced) :
    collapseTraced pending last (block ++ rest) = collapseTraced last.isSome last rest := by
  induction block generalizing pending with
  | nil => exact absurd rfl some_text
  | cons t block ih =>
    rw [List.cons_append, collapseTraced, if_pos (gaps t (.head _))]
    cases block with
    | nil => rfl
    | cons u block => exact ih (fun v member => gaps v (.tail _ member)) (by simp) _

theorem collapseTraced_kept {block : List Traced} (kept : ∀ t ∈ block, isGap t.cell = false)
    (some_text : block ≠ []) (pending : Bool) (last : Option Byte) (rest : List Traced) :
    ∃ space last', (space = [] ∨ space = [Byte.space]) ∧ collapseTraced pending last (block ++ rest) =
      put (uniform .code space) ++ block ++ collapseTraced false last' rest := by
  have more (block : List Traced) (kept : ∀ t ∈ block, isGap t.cell = false) (last : Option Byte) :
      ∃ last', collapseTraced false last (block ++ rest) = block ++ collapseTraced false last' rest := by
    induction block generalizing last with
    | nil => exact ⟨last, rfl⟩
    | cons t block ih =>
      obtain ⟨last', same⟩ := ih (fun v member => kept v (.tail _ member)) (some t.cell.byte)
      refine ⟨last', ?_⟩
      rw [List.cons_append, collapseTraced, if_neg (by simp [kept t (.head _)]), same]
      simp [spacing, isSpaced, put]
  obtain ⟨t, block, rfl⟩ := List.exists_cons_of_ne_nil some_text
  obtain ⟨last', same⟩ := more block (fun v member => kept v (.tail _ member)) (some t.cell.byte)
  refine ⟨spacing pending last.toList t.cell.byte, last', ?_, ?_⟩
  · unfold spacing
    split
    · exact .inr rfl
    · exact .inl rfl
  · rw [List.cons_append, collapseTraced, if_neg (by simp [kept t (.head _)]), same]
    simp

theorem filter_uniform (cls : LexClass) (text : Bytes) :
    (uniform cls text).filter (!·.isComment) =
      if cls = .lineComment ∨ cls = .blockComment then [] else uniform cls text := by
  split
  next comment =>
    rw [List.filter_eq_nil_iff]
    intro d member
    obtain ⟨_, _, rfl⟩ := List.mem_map.mp member
    rcases comment with rfl | rfl <;> simp [isComment]
  next code =>
    rw [List.filter_eq_self]
    intro d member
    obtain ⟨_, _, rfl⟩ := List.mem_map.mp member
    simpa [isComment] using code

section Block

variable {removals : List Splice} {block : List Traced} {cls : LexClass} {c : Char} {gone : Bool}

theorem alike_gap (own : erase block = uniform cls (utf8EncodeChar c))
    (same : ∀ t ∈ block, t.isIn removals = gone) (gaps : ∀ b ∈ utf8EncodeChar c, isGap ⟨b, cls⟩ = true) :
    Bytes.Alike [] (bytes ((erase (without removals block)).filter (!·.isComment))) := by
  rw [without_block same]
  cases gone with
  | true => exact .refl .nil
  | false =>
    rw [if_neg Bool.false_ne_true, own, filter_uniform]
    split
    next => exact .refl .nil
    next code =>
      obtain ⟨b, body, shape, _⟩ := encode_shape c
      have gap := gaps b (by simp [shape])
      have blank : Byte.isBlank b = true := by
        cases cls <;> simp_all [isGap, isComment, isCode]
      have single := encode_of_ascii (by simp [shape] : b ∈ utf8EncodeChar c) (Byte.isAscii_of_isBlank blank)
      rw [bytes_uniform, single]
      exact (Bytes.Alike.space single (Byte.isWhite_of_isBlank blank)).symm

/-- A character that stays is in no comment. -/
theorem alike_kept_char (own : erase block = uniform cls (utf8EncodeChar c))
    (same : ∀ t ∈ block, t.isIn removals = gone) (kept : ∀ b ∈ utf8EncodeChar c, isGap ⟨b, cls⟩ = false) :
    Bytes.Alike (bytes (erase (without removals block)))
      (bytes ((erase (without removals block)).filter (!·.isComment))) := by
  rw [without_block same]
  cases gone with
  | true => exact .refl .nil
  | false =>
    have code : ¬(cls = .lineComment ∨ cls = .blockComment) := by
      obtain ⟨b, body, shape, _⟩ := encode_shape c
      have solid := kept b (by simp [shape])
      rintro (rfl | rfl) <;> cases solid
    rw [if_neg Bool.false_ne_true, own, filter_uniform, if_neg code, bytes_uniform]
    exact .refl (.encode c)

end Block

/-- A text in one line has the characters of the text that are in no comment, but for white space. -/
theorem alike_collapseTraced {removals : List Splice} {traced : List Traced}
    (whole : Whole removals traced) (pending : Bool) (last : Option Byte) :
    Bytes.Alike (bytes (erase (without removals (collapseTraced pending last traced))))
      (bytes ((erase (without removals traced)).filter (!·.isComment))) := by
  induction whole generalizing pending last with
  | nil => exact .refl .nil
  | @char cls c gone block rest own same _ ih =>
    have some_text : block ≠ [] := by
      rintro rfl
      obtain ⟨b, body, shape, _⟩ := encode_shape c
      rw [shape] at own
      cases own
    have each {value : Bool} (all : ∀ b ∈ utf8EncodeChar c, isGap ⟨b, cls⟩ = value) :
        ∀ t ∈ block, isGap t.cell = value := by
      intro t member
      have inside : t.cell ∈ erase block := List.mem_map_of_mem member
      rw [own] at inside
      obtain ⟨b, among, shown⟩ := List.mem_map.mp inside
      exact shown ▸ all b among
    rw [without_append, erase_append, List.filter_append, bytes_append]
    rcases isGap_char cls c with gaps | kept
    · rw [collapseTraced_gaps (each gaps) some_text]
      exact (alike_gap own same gaps).append (ih _ _)
    · obtain ⟨space, last', spaced, made⟩ := collapseTraced_kept (each kept) some_text pending last rest
      have blank : Bytes.Alike space [] := by
        rcases spaced with rfl | rfl
        · exact .refl .nil
        · exact .space (c := ' ') rfl rfl
      rw [made, without_append, without_append, without_put, erase_append, erase_append, erase_put,
        bytes_append, bytes_append, bytes_uniform]
      exact (blank.append (alike_kept_char own same kept)).append (ih _ _)

theorem valid_filter {cells : List Cell} (encoded : Encoded cells) :
    Bytes.Valid (bytes (cells.filter (!·.isComment))) := by
  induction encoded with
  | nil => exact .nil
  | @char cls c rest _ ih =>
    rw [List.filter_append, bytes_append, filter_uniform]
    split
    · exact ih
    · rw [bytes_uniform]
      exact .char c ih

theorem alike_spaces {cells : List Cell} (encoded : Encoded cells) {spaces : List Char}
    (text : bytes cells = spaces.flatMap utf8EncodeChar) (each : ∀ c ∈ spaces, Blank.isSpace c = true) :
    Bytes.Alike (bytes (cells.filter (!·.isComment))) [] := by
  induction encoded generalizing spaces with
  | nil => exact .refl .nil
  | @char cls c rest _ ih =>
    rw [bytes_append, bytes_uniform] at text
    cases spaces with
    | nil =>
      obtain ⟨b, body, shape, _⟩ := encode_shape c
      rw [shape] at text
      cases text
    | cons d spaces =>
      rw [List.flatMap_cons] at text
      obtain rfl := encode_inj text
      have later := ih (List.append_cancel_left text) fun e member => each e (.tail _ member)
      rw [List.filter_append, bytes_append, filter_uniform]
      change Bytes.Alike _ ([] ++ [])
      refine Bytes.Alike.append ?_ later
      split
      · exact .refl .nil
      · have own : Bytes.Alike ([c].flatMap utf8EncodeChar) [] := .spaces (by simpa using each c (.head _))
        rw [List.flatMap_singleton] at own
        rwa [bytes_uniform]

variable {sig : Signature} {edits removals : List Splice}

/-- What trimming takes away of a signature is white space, in a comment or out of it. -/
theorem alike_kept (encoded : Encoded (Splice.apply sig.cells edits)) :
    Bytes.Alike (bytes ((Splice.apply sig.cells edits).filter (!·.isComment)))
      (bytes ((sig.kept edits).filter (!·.isComment))) := by
  obtain ⟨trimmed, spaces, text, each⟩ := encoded.valid.trimEnd_spec
  have boundary : Bytes.Boundary (bytes (Splice.apply sig.cells edits)) (sig.render edits).length := by
    rw [text]
    exact (Bytes.boundary_length _).append (.flatMap fun c _ => .encode c)
  obtain ⟨front, back⟩ := encoded.split boundary
  have rest : bytes ((Splice.apply sig.cells edits).drop (sig.render edits).length) =
      spaces.flatMap utf8EncodeChar := by
    rw [bytes, List.map_drop, ← bytes, text]
    exact List.drop_left
  have parts := Bytes.Alike.append (.refl (valid_filter front)) (alike_spaces back rest each)
  rwa [← bytes_append, ← List.filter_append, List.take_append_drop, List.append_nil] at parts

/-- Without the default arguments a declaration has the signature of the definition. -/
theorem alike_declared (given : Splice.Removals edits removals) (encoded : Encoded sig.cells)
    (cuts : ∀ w ∈ removals, w.span.Cuts (bytes sig.cells))
    (made : Splice.Cuts (bytes sig.cells) sig.length 0 (Splice.counted 0 (Splice.inOrder edits)))
    (made' : Splice.Cuts (bytes sig.cells) sig.length 0
      (Splice.counted 0 (Splice.inOrder (edits ++ removals)))) :
    Bytes.Alike (bytes (erase (without removals (sig.declared edits))))
      (bytes ((sig.kept (edits ++ removals)).filter (!·.isComment))) := by
  have collapsed := alike_collapseTraced (Splice.whole_trace encoded cuts made) false none
  rw [Splice.erase_without_trace sig.cells given] at collapsed
  exact collapsed.trans (alike_kept (Splice.encoded_applyFrom encoded made'))

theorem collapseFrom_kept {c : Cell} (kept : isGap c = false) (front : List Cell) (pending : Bool)
    (written : Bytes) : ∃ text, ∀ rest, collapseFrom pending written (front ++ c :: rest) =
      collapseFrom false (c.byte :: text) rest := by
  induction front generalizing pending written with
  | nil => exact ⟨_, fun rest => by rw [List.nil_append, collapseFrom_cons, if_neg (by simp [kept])]; rfl⟩
  | cons d front ih =>
    simp only [List.cons_append, collapseFrom_cons]
    split
    · exact ih _ _
    · exact ih _ _

theorem sign_of_mem_spacing (pending : Bool) (written : Bytes) (b : Byte) :
    ∀ d ∈ spacing pending written b, Byte.isIdent d = false := by
  unfold spacing
  split
  · intro d member
    rw [List.mem_singleton.mp member]
    rfl
  · simp

/-- Of what stands between two identifiers something remains, or a space is due. -/
theorem collapseFrom_between {gap : List Cell}
    (apart : ∀ c ∈ gap, c.isComment = true ∨ Byte.isIdent c.byte = false) (pending : Bool) {written : Bytes}
    (some_text : written ≠ []) : ∃ pending' between,
      (∀ rest, collapseFrom pending written (gap ++ rest) = collapseFrom pending' (between ++ written) rest) ∧
      (∀ b ∈ between, Byte.isIdent b = false) ∧
      (gap ≠ [] ∨ pending = true → pending' = true ∨ between ≠ []) := by
  induction gap generalizing pending written with
  | nil => exact ⟨pending, [], fun rest => rfl, by simp, by simp⟩
  | cons c gap ih =>
    have later := fun d (member : d ∈ gap) => apart d (.tail _ member)
    simp only [List.cons_append, collapseFrom_cons]
    split
    next =>
      have due : (written != []) = true := by simpa using some_text
      rw [due]
      obtain ⟨pending', between, made, signs, remains⟩ := ih later true some_text
      exact ⟨pending', between, made, signs, fun _ => remains (.inr rfl)⟩
    next kept =>
      have sign : Byte.isIdent c.byte = false := by
        refine (apart c (.head _)).resolve_left fun comment => kept ?_
        rw [isGap, comment]
        rfl
      obtain ⟨pending', between, made, signs, _⟩ := ih later false
        (by simp : c.byte :: (spacing pending written c.byte ++ written) ≠ [])
      refine ⟨pending', between ++ c.byte :: spacing pending written c.byte, fun rest => ?_, fun b member => ?_,
        fun _ => .inr (by simp)⟩
      · rw [made]
        simp
      · rcases List.mem_append.mp member with inside | own
        · exact signs b inside
        rcases List.mem_cons.mp own with rfl | space
        · exact sign
        · exact sign_of_mem_spacing _ _ _ b space

/-- Two bytes of identifiers that something else keeps apart, a comment or anything but a byte of an
identifier, are kept apart in one line. -/
theorem collapseFrom_apart {front gap back : List Cell} {c d : Cell}
    (first : Byte.isIdent c.byte = true ∧ c.isComment = false)
    (second : Byte.isIdent d.byte = true ∧ d.isComment = false) (some_gap : gap ≠ [])
    (apart : ∀ e ∈ gap, e.isComment = true ∨ Byte.isIdent e.byte = false) :
    ∃ text between more,
      collapseFrom false [] (front ++ [c]) = text ++ [c.byte] ∧
      collapseFrom false [] (front ++ c :: (gap ++ [d])) = text ++ c.byte :: (between ++ [d.byte]) ∧
      collapseFrom false [] (front ++ c :: (gap ++ d :: back)) =
        text ++ c.byte :: (between ++ d.byte :: more) ∧
      between ≠ [] ∧ ∀ b ∈ between, Byte.isIdent b = false := by
  have kept {e : Cell} (ident : Byte.isIdent e.byte = true ∧ e.isComment = false) : isGap e = false := by
    cases blank : Byte.isBlank e.byte with
    | false => simp [isGap, ident.2, blank]
    | true =>
      rw [not_ident_of_blank blank] at ident
      cases ident.1
  obtain ⟨text, upto⟩ := collapseFrom_kept (kept first) front false []
  obtain ⟨pending, between, passed, signs, remains⟩ :=
    collapseFrom_between apart false (by simp : c.byte :: text ≠ [])
  have due : pending = true ∨ between ≠ [] := remains (.inl some_gap)
  have unspaced := @of_spacing_eq_nil pending (between ++ c.byte :: text) d.byte
  have blank := sign_of_mem_spacing pending (between ++ c.byte :: text) d.byte
  have step (rest : List Cell) : collapseFrom false [] (front ++ c :: (gap ++ d :: rest)) =
      collapseFrom false (d.byte :: (spacing pending (between ++ c.byte :: text) d.byte ++ between ++
        c.byte :: text)) rest := by
    rw [upto, passed, collapseFrom_cons, if_neg (by simp [kept second])]
    simp
  generalize spacing pending (between ++ c.byte :: text) d.byte = space at step unspaced blank
  have more := collapseFrom_erase false (d.byte :: (space ++ between ++ c.byte :: text)) (put back)
  rw [erase_put, ← step] at more
  refine ⟨text.reverse, (space ++ between).reverse, _, ?_, ?_, by rw [more]; simp; rfl, ?_, ?_⟩
  · rw [upto, collapseFrom, List.reverse_cons]
  · rw [step, collapseFrom]
    simp
  · intro none
    obtain ⟨rfl, rfl⟩ := List.append_eq_nil_iff.mp (List.reverse_eq_nil_iff.mp none)
    rcases unspaced rfl with waiting | paren | closes | comma
    · rw [waiting] at due
      simp at due
    · have opens : c.byte = Byte.openParen := Option.some.inj paren
      rw [opens] at first
      cases first.1
    · rw [closes] at second
      cases second.1
    · rw [comma] at second
      cases second.1
  · intro b member
    rcases List.mem_append.mp (List.mem_reverse.mp member) with own | inside
    · exact blank b own
    · exact signs b inside

open Cell

variable {blanks : List Cell} {tail : Bytes} {at_ : Nat} {c : Cell}

def upTo (at_ : Nat) (edits : List Splice) : List Splice := edits.filter (·.span.start < at_)

/-- Edits that leave the byte at an offset alone, and none of which is made right in front of it. -/
def Spare (at_ : Nat) (edits : List Splice) : Prop :=
  ∀ w ∈ edits, w.span.start ≤ w.span.stop ∧ (w.span.start < at_ ∧ w.span.stop ≤ at_ ∨ at_ < w.span.start)

theorem Spare.upTo (spare : Spare at_ edits) : Spare at_ (upTo at_ edits) :=
  fun w member => spare w (List.mem_filter.mp member).1

theorem upTo_upTo (at_ : Nat) (edits : List Splice) : upTo at_ (upTo at_ edits) = upTo at_ edits := by
  rw [upTo, upTo, List.filter_filter]
  simp

theorem exists_apply_front (spare : Spare at_ edits) (here : sig.cells[at_]? = some c) :
    ∃ more, Splice.apply sig.cells edits =
      Splice.apply (sig.cells.take at_) (upTo at_ edits) ++ c :: more := by
  obtain ⟨bound, rfl⟩ := List.getElem?_eq_some_iff.mp here
  have behind : ∀ w ∈ Splice.inOrder (edits.filter fun w => !decide (w.span.start < at_)),
      at_ + 1 ≤ w.span.start := by
    intro w member
    obtain ⟨among, after⟩ := List.mem_filter.mp (Splice.mem_inOrder.mp member)
    have := spare w among
    simp only [Bool.not_eq_true', decide_eq_false_iff_not] at after
    omega
  have one : (Span.mk at_ (at_ + 1)).slice sig.cells = [sig.cells[at_]] := by
    rw [Span.slice, Span.length, Nat.add_sub_cancel_left, List.drop_eq_getElem_cons bound]
    rfl
  have each : ∀ w ∈ edits, w.span.start ≤ w.span.stop ∧ (w.span.start < at_ → w.span.stop ≤ at_) := by
    intro w member
    have := spare w member
    omega
  rw [Splice.apply_divided each, Splice.applyFrom_of_le (Nat.le_succ at_) behind, one]
  exact ⟨_, rfl⟩

/-- Up to the sign an edited signature is read alike in front of every text. -/
theorem standalone_front (stands : sig.Stands blanks tail) (spare : Spare at_ edits)
    (readable : ∀ w ∈ upTo at_ edits, sig.Edits blanks tail w) (here : sig.cells[at_]? = some c)
    (code : c.isCode = true) (seals : c.Seals) :
    (∃ more, Reads [] (Splice.apply (sig.cells.take at_) (upTo at_ edits)) (c.byte :: more)) ∧
      Standalone (Splice.apply (sig.cells.take at_) (upTo at_ edits) ++ [c]) := by
  obtain ⟨more, parts⟩ := exists_apply_front spare.upTo here
  have read := reads_edited stands readable
  rw [parts, upTo_upTo, List.append_assoc] at read
  constructor
  · exact ⟨_, (read.split_before (by simpa using code)).1⟩
  · rw [List.cons_append, List.append_cons] at read
    have front := Reads.standalone (read.split_behind (by simpa using code)).1
    exact front (by simpa using seals)

theorem exists_render_front {front more : List Cell} (parts : Splice.apply sig.cells edits = front ++ c :: more)
    (solid : ¬Blank.IsPart c.byte) : ∃ rest, sig.render edits = bytes (front ++ [c]) ++ rest := by
  obtain ⟨own, white, whole, part⟩ := kept_append sig edits
  rw [parts, List.append_cons] at whole
  rcases List.append_eq_append_iff.mp whole with ⟨rest, kept, _⟩ | ⟨rest, begins, same⟩
  · exact ⟨bytes rest, by rw [← own, kept, bytes_append]⟩
  · have none : rest = [] := by
      by_contra some_white
      have last := congrArg List.getLast? begins
      rw [List.getLast?_concat, List.getLast?_append_of_ne_nil _ some_white] at last
      exact solid (part c (same ▸ List.mem_append_left _ (List.mem_of_getLast? last.symm)))
    rw [none, List.append_nil] at begins
    exact ⟨[], by rw [← own, begins, List.append_nil]⟩

/-- Behind what is written in one line goes a sign, with a space in front of it or without. -/
theorem exists_collapse_front (kept : isGap c = false) (front more : List Cell) (pending : Bool)
    (written : Bytes) : ∃ space rest, (space = [] ∨ space = [Byte.space]) ∧
      collapseFrom pending written (front ++ c :: more) =
        collapseFrom pending written front ++ (space ++ c.byte :: rest) := by
  induction front generalizing pending written with
  | nil =>
    have spaced : spacing pending written c.byte = [] ∨ spacing pending written c.byte = [Byte.space] := by
      unfold spacing
      split
      · exact .inr rfl
      · exact .inl rfl
    obtain ⟨rest, later⟩ : ∃ rest, collapseFrom false (c.byte :: spacing pending written c.byte ++ written) more =
        (c.byte :: spacing pending written c.byte ++ written).reverse ++ rest := by
      have traced := collapseFrom_erase false (c.byte :: spacing pending written c.byte ++ written)
        (Traced.put more)
      rw [Traced.erase_put] at traced
      exact ⟨_, traced⟩
    refine ⟨_, rest, spaced, ?_⟩
    rw [List.nil_append, collapseFrom_cons, if_neg (by simp [kept]), later, collapseFrom]
    rcases spaced with none | space
    · rw [none]
      simp
    · rw [space]
      simp
  | cons d front ih =>
    rw [List.cons_append, collapseFrom_cons, collapseFrom_cons]
    split
    · exact ih _ _
    · exact ih _ _

end Signature

end OutOfLine
