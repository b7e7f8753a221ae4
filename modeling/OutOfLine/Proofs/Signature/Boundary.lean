import OutOfLine.Proofs.Scan.Character
import OutOfLine.Proofs.Signature.Collapse
import OutOfLine.Proofs.Signature.Parameters

/-! The ranges that a class and its functions are taken apart by, and the edits of a signature,
part no character. -/

namespace OutOfLine

namespace Cell

theorem isAscii_of_view {c : Cell} (visible : c.view ≠ Byte.space) : Byte.isAscii c.byte = true := by
  unfold view at visible
  split at visible
  next shown =>
    rw [Bool.and_eq_true] at shown
    exact shown.1
  next => exact absurd rfl visible

theorem isAscii_of_isCodeByte {b : Byte} {c : Cell} (is_byte : c.isCodeByte b = true)
    (ascii : Byte.isAscii b = true) : Byte.isAscii c.byte = true := by
  rw [(of_isCodeByte is_byte).1]
  exact ascii

end Cell

namespace Callable

variable {text : Bytes}

theorem solid_of_lengthToLastToken (some_token : 0 < lengthToLastToken text) :
    ∃ b, text[lengthToLastToken text - 1]? = some b ∧ Byte.isBlank b = false := by
  unfold lengthToLastToken at some_token ⊢
  have short := (List.dropWhile_suffix Byte.isBlank (l := text.reverse))
  have first := List.head?_dropWhile_not Byte.isBlank text.reverse
  cases tokens : text.reverse.dropWhile Byte.isBlank with
  | nil => simp [tokens] at some_token
  | cons b rest =>
    rw [tokens] at short first
    refine ⟨b, ?_, by simpa using first⟩
    obtain ⟨blanks, whole⟩ := short
    have text_eq := congrArg List.reverse whole
    rw [List.reverse_reverse] at text_eq
    rw [← text_eq]
    simp

theorem operatorName?_last {keyword : Nat} {name : Span} (found : operatorName? text keyword = some name)
    (some_name : name.start < name.stop) :
    ∃ b, text[name.stop - 1]? = some b ∧ Byte.isBlank b = false := by
  simp only [operatorName?, Option.bind_eq_bind, Option.bind_eq_some_iff] at found
  obtain ⟨distance, _, same⟩ := found
  cases same
  obtain ⟨b, last, solid⟩ := solid_of_lengthToLastToken (Nat.pos_of_lt_add_right some_name)
  rw [List.getElem?_drop, ← Nat.add_sub_assoc (Nat.pos_of_lt_add_right some_name)] at last
  exact ⟨b, getElem?_of_take last, solid⟩

theorem plainName?_last {name : Span} (found : plainName? text = some name) :
    ∃ b, text[name.stop - 1]? = some b ∧ Byte.isBlank b = false := by
  have inside := plainName?_inside found
  simp only [plainName?, Option.bind_eq_bind, Option.bind_eq_some_iff] at found
  obtain ⟨_, _, _, _, same⟩ := found
  cases same
  exact solid_of_lengthToLastToken (Nat.lt_of_le_of_lt (Nat.zero_le _) inside.1)

theorem name?_last {name : Span} (found : name? text = some name) :
    ∃ b, text[name.stop - 1]? = some b ∧ Byte.isBlank b = false := by
  have inside := name?_inside found
  unfold name? at found
  split at found
  next keyword operator => exact operatorName?_last found inside.1
  next =>
    simp only [Option.bind_eq_bind, Option.bind_eq_some_iff] at found
    obtain ⟨paren, _, _, _, plain⟩ := found
    obtain ⟨b, last, solid⟩ := plainName?_last plain
    exact ⟨b, getElem?_of_take last, solid⟩

end Callable

/-- The ranges of a function: its signature, its name and its body with the braces. -/
structure Callable.Cuts (text : Bytes) (c : Callable) : Prop where
  signature : c.signature.Cuts text
  name : c.name.Cuts text
  body : c.body.span.Cuts text

structure Declaration.Cuts (text : Bytes) (d : Declaration) : Prop where
  before : (Span.mk 0 d.anchor).Cuts text
  heading : d.heading.Cuts text
  body : d.block.body.Cuts text
  behind : (Span.mk d.stop text.length).Cuts text

variable {s : Scan}

theorem Block.Located.cuts {b : Block} (valid : b.Located s) (encoded : Cell.Encoded s.cells) :
    b.span.Cuts s.bytes ∧ b.body.Cuts s.bytes := by
  obtain ⟨c, opens, opening⟩ := valid.opening
  obtain ⟨d, closes, closing⟩ := valid.closing
  have opening := Cell.isAscii_of_isCodeByte opening rfl
  have closing := Cell.isAscii_of_isCodeByte closing rfl
  have order := valid.lt
  exact ⟨⟨by simp only [Block.span]; omega, Cell.boundary_at opens opening,
      encoded.boundary_behind closes closing⟩,
    by simp only [Block.body]; omega, encoded.boundary_behind opens opening,
    Cell.boundary_at closes closing⟩

theorem Declaration.boundary_anchor {d : Declaration} {name : Bytes} {keywords : List Bytes}
    (encoded : Cell.Encoded s.cells) (found : find s name keywords = .ok d) :
    Bytes.Boundary s.bytes d.anchor := by
  obtain ⟨_, bound, n, taken⟩ := head_of_find found
  unfold head at taken
  split at taken
  next boundary =>
    have ascii {c : Cell} (ident : Byte.isIdent c.view = true) : Byte.isAscii c.byte = true := by
      refine Cell.isAscii_of_view fun space => ?_
      rw [space] at ident
      cases ident
    obtain ⟨c, here⟩ : ∃ c, s.cells[d.anchor]? = some c := ⟨_, List.getElem?_eq_getElem bound⟩
    rw [List.head?_drop, Cell.views, List.getElem?_map, here, isWordBoundary, Option.map_some,
      Option.any_some] at boundary
    cases word : Byte.isIdent c.view with
    | true => exact Cell.boundary_at here (ascii word)
    | false =>
      rw [word, bne_iff_ne, ne_eq, Bool.not_eq_false, Recogniser.previous] at boundary
      split at boundary
      next => cases boundary
      next later =>
        rw [List.getElem?_map] at boundary
        cases before : s.cells[d.anchor - 1]? with
        | none => simp [before] at boundary
        | some c =>
          rw [before, Option.map_some, Option.any_some] at boundary
          have behind := encoded.boundary_behind before (ascii boundary)
          rwa [Nat.sub_add_cancel (Nat.pos_of_ne_zero later)] at behind
  next => cases taken

theorem Declaration.cuts_of_find {d : Declaration} {name : Bytes} {keywords : List Bytes}
    (encoded : Cell.Encoded s.cells) (read : Cell.Reads [] s.cells [])
    (found : find s name keywords = .ok d) : d.Cuts s.bytes := by
  obtain ⟨_, placed⟩ := placed_of_find found
  have anchor := boundary_anchor encoded found
  have bounds := placed.bounds
  obtain ⟨c, opens, opening⟩ := placed.block.opening
  obtain ⟨e, last, ending⟩ := placed.last read
  have behind : Bytes.Boundary s.bytes (d.stop - 1 + 1) := by
    refine encoded.boundary_behind last ?_
    rcases ending with ending | ending
    · exact Cell.isAscii_of_isCodeByte ending rfl
    · exact Cell.isAscii_of_isCodeByte ending rfl
  rw [Nat.sub_add_cancel (by omega)] at behind
  exact {
    before := ⟨Nat.zero_le _, encoded.valid.boundary_zero, anchor⟩
    heading := ⟨placed.anchor, anchor, Cell.boundary_at opens (Cell.isAscii_of_isCodeByte opening rfl)⟩
    body := (placed.block.cuts encoded).2
    behind := ⟨behind.1, behind, Bytes.boundary_length _⟩ }

theorem Marker.Inside.cuts {block : Block} {m : Marker} (inside : m.Inside s block)
    (encoded : Cell.Encoded s.cells) : m.span.Cuts s.bytes := by
  obtain ⟨c, begins, first, _⟩ := inside.first
  obtain ⟨d, ends, last, _⟩ := inside.last
  have order := inside.ordered
  have stop := encoded.boundary_behind ends (by rw [last]; rfl)
  rw [Nat.sub_add_cancel (by omega)] at stop
  exact ⟨by omega, Cell.boundary_at begins (by rw [first]; rfl), stop⟩

/-- A section goes from an end of the body or of a label to another one. -/
theorem Sectioning.cuts_of_mem_sections {block : Block} (valid : block.Located s)
    (encoded : Cell.Encoded s.cells) {part : BodySection} (member : part ∈ (of s block).sections) :
    part.span.Cuts s.bytes := by
  have order := (inside_of_mem_sections valid member).ordered
  have body := (valid.cuts encoded).2
  have label (m : Marker) (among : m ∈ markersOf s block) : m.span.Cuts s.bytes :=
    (inside_of_mem_markersOf valid among).cuts encoded
  cases splits_of_mem_split member with
  | heading first => exact ⟨order, body.start, (label _ (mem_of_leading first)).start⟩
  | exposed starts stops =>
    refine ⟨order, ?_, ?_⟩
    · rcases starts with ⟨_, rfl⟩ | ⟨m, first, rfl⟩
      · exact body.start
      · exact (label m (mem_of_leading first)).stop
    · rcases stops with ⟨_, rfl⟩ | ⟨n, second, rfl⟩
      · exact body.stop
      · exact (label n (mem_of_parting second)).start
  | hidden second => exact ⟨order, (label _ (mem_of_parting second)).stop, body.stop⟩

/-- A function begins and ends next to ASCII bytes, or with its class. -/
theorem Callable.Placed.cuts {stop : Nat} {c : Callable} (placed : c.Placed s stop)
    (encoded : Cell.Encoded s.cells) : c.Cuts s.bytes := by
  obtain ⟨first, here, solid⟩ := placed.first
  obtain ⟨before, previous, clear⟩ := placed.clear
  obtain ⟨o, opens, opening⟩ := placed.body.opening
  have signature := placed.signature
  have joined := placed.joined
  have start : Bytes.Boundary s.bytes c.signature.start := by
    refine encoded.boundary_of_trivia here solid fun d _ there => ?_
    obtain rfl : before = d := Option.some.inj (previous.symm.trans there)
    refine clear.imp_right fun separator => ?_
    simp only [List.mem_cons, List.not_mem_nil, or_false] at separator
    rcases separator with same | same | same | same <;> rw [same] <;> rfl
  have stop : Bytes.Boundary s.bytes c.signature.stop := by
    by_cases at_brace : c.signature.stop = c.body.opening
    · rw [at_brace]
      exact Cell.boundary_at opens (Cell.isAscii_of_isCodeByte opening rfl)
    · have inside := (List.getElem?_eq_some_iff.mp opens).1
      have blank := List.getElem?_eq_getElem (by omega : c.signature.stop < s.cells.length)
      refine Cell.boundary_at blank (Byte.isAscii_of_isBlank (placed.blank _ ?_ ?_ _ blank)) <;> omega
  obtain ⟨name, named, shifted⟩ := placed.named
  have visible {at_ : Nat} {b : Byte} (solid : Byte.isBlank b = false)
      (shown : (Cell.views (c.signature.slice s.cells))[at_]? = some b) :
      ∃ d, s.cells[at_ + c.signature.start]? = some d ∧ Byte.isAscii d.byte = true := by
    rw [Cell.views, List.getElem?_map, Option.map_eq_some_iff] at shown
    obtain ⟨d, there, rfl⟩ := shown
    have place := getElem?_of_take there
    rw [List.getElem?_drop, Nat.add_comm] at place
    exact ⟨d, place, Cell.isAscii_of_view (by rintro space; rw [space] at solid; cases solid)⟩
  have inside := name?_inside named
  refine ⟨⟨Nat.le_of_lt signature, start, stop⟩, shifted ▸ ⟨?_, ?_, ?_⟩, (placed.body.cuts encoded).1⟩
  · simp only [Span.shift]
    omega
  · obtain ⟨b, shown, begins⟩ := nameAt_of_name? named
    have solid : Byte.isBlank b = false := by
      rcases begins with rfl | ⟨ident, _⟩
      · rfl
      · exact Bool.eq_false_iff.mpr fun blank => by
          rw [Cell.not_ident_of_blank blank] at ident
          cases ident
    obtain ⟨d, there, ascii⟩ := visible solid shown
    exact Cell.boundary_at there ascii
  · obtain ⟨b, shown, solid⟩ := name?_last named
    obtain ⟨d, there, ascii⟩ := visible solid shown
    have behind := encoded.boundary_behind there ascii
    have place : name.stop - 1 + c.signature.start + 1 = name.stop + c.signature.start := by omega
    rwa [place] at behind

open String (utf8EncodeChar)

namespace Cell

variable {cells : List Cell}

theorem Encoded.boundary_skip (encoded : Encoded cells) {p : Cell → Bool} {start : Nat}
    (boundary : Bytes.Boundary (bytes cells) start)
    (ascii : ∀ c, p c = true → Byte.isAscii c.byte = true) :
    Bytes.Boundary (bytes cells) (start + ((cells.drop start).takeWhile p).length) := by
  have upto := boundary.1
  rw [bytes, List.length_map] at upto
  obtain ⟨inside, skipped, _⟩ := skipped_spec p cells upto
  generalize ((cells.drop start).takeWhile p).length = n at inside skipped ⊢
  cases n with
  | zero => exact boundary
  | succ n =>
    have last := List.getElem?_eq_getElem (by omega : start + n < cells.length)
    exact encoded.boundary_behind last (ascii _ (skipped _ _ (by omega) (by omega) last))

end Cell

namespace Signature
open Cell

variable {sig : Signature} {blanks : List Cell} {tail : Bytes} {w : Splice}

structure Cuts (sig : Signature) (w : Splice) : Prop where
  span : w.span.Cuts (bytes sig.cells)
  text : Bytes.Valid w.text

theorem wordRemoval_cuts (encoded : Encoded sig.cells) {word : Bytes} {at_ : Nat}
    (found : WordAt word sig.cells at_) (some_word : word ≠ []) (valid : Bytes.Valid word) :
    sig.Cuts (sig.wordRemoval at_ word.length) := by
  have occurs := found.text
  rw [bytes, List.map_drop] at occurs
  obtain ⟨start, stop⟩ := encoded.valid.boundaries_of_prefix some_word valid occurs
  refine ⟨⟨?_, start, encoded.boundary_skip stop fun c blank => ?_⟩, .nil⟩
  · simp only [wordRemoval, Splice.remove]
    omega
  · exact Byte.isAscii_of_isBlank (isBlank_of_isInlineBlank blank)

theorem markerRemoval_cuts (encoded : Encoded sig.cells) {markers : List Bytes}
    (valid : ∀ m ∈ markers, Bytes.Valid m) (member : w ∈ sig.markerRemovals markers) : sig.Cuts w := by
  obtain ⟨marker, among, at_, some_word, found, _, rfl⟩ := of_mem_markerRemovals member
  exact wordRemoval_cuts encoded found some_word (valid marker among)

theorem constRemoval_cuts (encoded : Encoded sig.cells) (member : w ∈ sig.constRemovals) :
    sig.Cuts w := by
  obtain ⟨_, at_, _, _, found, rfl⟩ := of_mem_constRemovals member
  exact wordRemoval_cuts encoded found (by decide) (Bytes.valid_utf8 _)

theorem scope_cuts (named : sig.name.Cuts (bytes sig.cells)) {owner : Bytes}
    (valid : Bytes.Valid owner) : sig.Cuts (.insert sig.name.start (Definition.scope owner)) :=
  ⟨⟨Nat.le_refl _, named.start, named.start⟩, valid.append (Bytes.valid_utf8 _)⟩

theorem qualifierInsertion_cuts (stands : sig.Stands blanks tail) (encoded : Encoded sig.cells)
    {qualifier : Bytes} (valid : Bytes.Valid qualifier)
    (made : sig.qualifierInsertion? qualifier = some w) : sig.Cuts w := by
  obtain ⟨place, found, rfl⟩ := of_qualifierInsertion? made
  obtain ⟨⟨c, here, solid⟩, before⟩ := qualifierPlace?_spec stands found
  have boundary : Bytes.Boundary (bytes sig.cells) place := by
    refine encoded.boundary_of_trivia here solid fun d positive there => ?_
    refine (before d positive there).imp_right ?_
    rintro (same | same) <;> rw [same] <;> rfl
  exact ⟨⟨Nat.le_refl _, boundary, boundary⟩, valid.append (Bytes.valid_utf8 " ")⟩

theorem defaultRemoval_cuts (parameters : sig.parameters = parameters? sig.cells sig.name)
    (member : w ∈ sig.defaultRemovals) : sig.Cuts w := by
  have removed := removed_of_mem_defaultRemovals parameters member
  obtain ⟨equals, ⟨order, _, _⟩, before⟩ := removed.start
  obtain ⟨c, at_stop, ends⟩ := removed.stop
  have bound := (List.getElem?_eq_some_iff.mp at_stop).1
  have first := List.getElem?_eq_getElem (by omega : w.span.start < sig.cells.length)
  refine ⟨⟨by omega, boundary_at first ?_, boundary_at at_stop ?_⟩, removed.text ▸ .nil⟩
  · rcases removed.first _ first with blank | same
    · exact Byte.isAscii_of_isBlank blank
    · rw [same]
      rfl
  · rcases ends with comma | paren
    · exact isAscii_of_isCodeByte comma rfl
    · exact isAscii_of_isCodeByte paren rfl

theorem parameters_cuts (encoded : Encoded sig.cells)
    (parameters : sig.parameters = parameters? sig.cells sig.name) {p : Span}
    (found : sig.parameters = some p) : p.Cuts (bytes sig.cells) := by
  obtain ⟨_, order, _, ⟨o, opens, opening⟩, ⟨c, closes, closing⟩⟩ :=
    parameters?_spec (parameters.symm.trans found)
  have stop := encoded.boundary_behind closes (isAscii_of_isCodeByte closing rfl)
  rw [Nat.sub_add_cancel (by omega)] at stop
  exact ⟨by omega, boundary_at opens (isAscii_of_isCodeByte opening rfl), stop⟩

theorem isGap_char (cls : LexClass) (c : Char) :
    (∀ b ∈ utf8EncodeChar c, isGap ⟨b, cls⟩ = true) ∨ ∀ b ∈ utf8EncodeChar c, isGap ⟨b, cls⟩ = false := by
  obtain ⟨b, body, shape, _, goes_on, wide⟩ := encode_shape c
  have solid {d : Byte} (wide : Byte.isAscii d = false) : isGap ⟨d, .code⟩ = false := by
    cases blank : Byte.isBlank d with
    | false => simp [isGap, isComment, blank]
    | true =>
      rw [Byte.isAscii_of_isBlank blank] at wide
      cases wide
  cases cls with
  | code =>
    rw [shape]
    cases body with
    | nil => cases gap : isGap ⟨b, .code⟩ <;> simp [gap]
    | cons d body =>
      refine .inr (List.forall_mem_cons.mpr ⟨solid (wide (by simp)), fun e member => solid ?_⟩)
      cases ascii : Byte.isAscii e with
      | false => rfl
      | true =>
        have continues := goes_on e member
        rw [Byte.not_continuation_of_ascii ascii] at continues
        cases continues
  | string => exact .inr (by simp [isGap, isComment, isCode])
  | char => exact .inr (by simp [isGap, isComment, isCode])
  | lineComment => exact .inl (by simp [isGap, isComment])
  | blockComment => exact .inl (by simp [isGap, isComment])

/-- A text in one line is made of the characters that it keeps and of spaces. -/
theorem valid_collapseFrom {cells : List Cell} (encoded : Encoded cells) (pending : Bool)
    {written : Bytes} (valid : Bytes.Valid written.reverse) :
    Bytes.Valid (collapseFrom pending written cells) := by
  induction encoded generalizing pending written with
  | nil => exact valid
  | @char cls c rest _ ih =>
    rcases isGap_char cls c with gaps | kept
    · have only : ∀ d ∈ uniform cls (utf8EncodeChar c), isGap d = true := List.forall_mem_map.mpr gaps
      rw [collapseFrom_gaps only pending written ?_ rest]
      · exact ih _ valid
      · obtain ⟨b, body, shape, _⟩ := encode_shape c
        simp [uniform, shape]
    · have whole := Bytes.Valid.char c .nil
      obtain ⟨b, body, shape, _⟩ := encode_shape c
      rw [shape] at kept whole ⊢
      rw [collapseFrom_lexeme kept]
      refine ih _ ?_
      have space : Bytes.Valid (spacing pending written b).reverse := by
        unfold spacing
        split
        · exact Bytes.valid_utf8 " "
        · exact .nil
      rw [List.append_nil] at whole
      rw [List.reverse_append, List.reverse_append, List.reverse_reverse]
      exact valid.append (space.append whole)

end Signature
end OutOfLine
