import OutOfLine.Declaration
import OutOfLine.Proofs.Lexeme
import OutOfLine.Proofs.Scan.Matching
import OutOfLine.Proofs.Text.Search

/-! The geometry of a class body: its labels and sections stand in order, and at the end of each
section the text is directly inside the class. -/
namespace OutOfLine

theorem Bytes.eq_of_dropHead? {head text rest : Bytes} (dropped : Bytes.dropHead? head text = some rest) :
    text = head ++ rest := by
  unfold Bytes.dropHead? at dropped
  split at dropped
  next fits =>
    obtain ⟨more, rfl⟩ := List.isPrefixOf_iff_prefix.mp fits
    cases dropped
    simp
  next => cases dropped

theorem skipped_spec {α : Type} (p : α → Bool) (items : List α) {start : Nat} (inside : start ≤ items.length) :
    let stop := start + ((items.drop start).takeWhile p).length
    stop ≤ items.length ∧ (∀ i c, start ≤ i → i < stop → items[i]? = some c → p c = true) ∧
      ∀ c, items[stop]? = some c → p c = false := by
  have parts := List.takeWhile_append_dropWhile (p := p) (l := items.drop start)
  have skipped := List.all_takeWhile (p := p) (l := items.drop start)
  have stops := List.head?_dropWhile_not p (items.drop start)
  generalize (items.drop start).takeWhile p = front at parts skipped
  generalize (items.drop start).dropWhile p = rest at parts stops
  have size := congrArg List.length parts
  rw [List.length_append, List.length_drop] at size
  have at_ (i : Nat) : items[start + i]? = (front ++ rest)[i]? := by rw [parts, List.getElem?_drop]
  refine ⟨by omega, fun i c low high found => ?_, fun c found => ?_⟩
  · have place : start + (i - start) = i := by omega
    rw [← place, at_, List.getElem?_append_left (by omega)] at found
    exact List.all_eq_true.mp skipped c (List.mem_of_getElem? found)
  · rw [at_, List.getElem?_append_right (Nat.le_refl _), Nat.sub_self, ← List.head?_eq_getElem?] at found
    rwa [found] at stops

theorem Cell.code_of_not_trivia {c : Cell} (solid : c.isTrivia = false) :
    c.isCode = true ∧ Byte.isBlank c.byte = false := by
  simpa [Cell.isTrivia] using solid

theorem Cell.of_isCodeByte {b : Byte} {c : Cell} (is_byte : c.isCodeByte b = true) :
    c.byte = b ∧ c.isCode = true := by
  simpa [isCodeByte] using is_byte

theorem Cell.isCodeByte_of_trivia {c : Cell} (trivia : c.isTrivia = true) {b : Byte}
    (solid : Byte.isBlank b = false) : c.isCodeByte b = false := by
  cases same : c.isCodeByte b with
  | false => rfl
  | true =>
    obtain ⟨rfl, code⟩ := of_isCodeByte same
    simp [isTrivia, code, solid] at trivia

theorem Cell.isCodeByte_of_solid {c : Cell} (solid : c.isTrivia = false) (b : Byte) :
    c.isCodeByte b = (c.byte == b) := by
  rw [isCodeByte, (code_of_not_trivia solid).1, Bool.and_true]

/-- Where the view has a byte that it puts in no other one's place, the text has it as code. -/
theorem Cell.of_view {c : Cell} (view : c.view = b) (notSpace : b ≠ Byte.space)
    (notNewline : b ≠ Byte.newline) : c.byte = b ∧ c.isCode = true := by
  unfold Cell.view at view
  split at view
  next plain =>
    simp only [Bool.and_eq_true, Bool.or_eq_true, beq_iff_eq] at plain
    rcases plain.2 with newline | code
    · exact absurd (view.symm.trans newline) notNewline
    · exact ⟨view, code⟩
  next => exact absurd view.symm notSpace

theorem Cell.isAscii_of_isIdent {b : Byte} (ident : Byte.isIdent b = true) : Byte.isAscii b = true := by
  simp only [Byte.isIdent, Byte.isLetter, Byte.isDigit, Byte.isAscii, Bool.or_eq_true,
    Bool.and_eq_true, decide_eq_true_eq, beq_iff_eq, UInt8.le_iff_toNat_le, UInt8.lt_iff_toNat_lt] at ident ⊢
  rcases ident with ((letter | letter) | digit) | rfl
  · exact Nat.lt_of_le_of_lt letter.2 (by decide)
  · exact Nat.lt_of_le_of_lt letter.2 (by decide)
  · exact Nat.lt_of_le_of_lt digit.2 (by decide)
  · decide

theorem Cell.view_of_ident {c : Cell} (code : c.isCode = true) (ident : Byte.isIdent c.byte = true) :
    c.view = c.byte := by
  simp [view, isAscii_of_isIdent ident, code]

theorem Cell.of_view_ident {c : Cell} (ident : Byte.isIdent c.view = true) :
    c.view = c.byte ∧ c.isCode = true := by
  have notSpace : c.view ≠ Byte.space := by
    intro space
    rw [space] at ident
    cases ident
  have notNewline : c.view ≠ Byte.newline := by
    intro newline
    rw [newline] at ident
    cases ident
  obtain ⟨same, code⟩ := of_view rfl notSpace notNewline
  exact ⟨same.symm, code⟩

namespace Access

theorem dropHead?_word {a b : Access} (other : a ≠ b) (rest : Bytes) :
    Bytes.dropHead? a.word (b.word ++ rest) = none := by
  cases a <;> cases b <;> first | exact absurd rfl other | rfl

/-- A label is its word and a colon, with no more than blanks between them. -/
theorem label_eq_some_iff {access : Access} {before : Option Byte} {text : Bytes} {n : Nat} :
    label before text = some (n, access) ↔ isWordBoundary before text.head? = true ∧
      ∃ gap rest, text = access.word ++ (gap ++ Byte.colon :: rest) ∧ (∀ b ∈ gap, Byte.isWhite b = true) ∧
        n = access.word.length + gap.length + 1 := by
  have cut {gap : Bytes} (white : ∀ b ∈ gap, Byte.isWhite b = true) (rest : Bytes) :
      (gap ++ Byte.colon :: rest).takeWhile Byte.isWhite = gap := by
    rw [List.takeWhile_append_of_pos white, List.takeWhile_cons_of_neg (by decide), List.append_nil]
  unfold label
  constructor
  · intro taken
    split at taken
    next boundary =>
      obtain ⟨a, _, found⟩ := List.exists_of_findSome?_eq_some taken
      simp only [Option.bind_eq_bind, Option.bind_eq_some_iff] at found
      obtain ⟨rest, dropped, _, colon, same⟩ := found
      obtain ⟨rfl, rfl⟩ : a.word.length + (rest.takeWhile Byte.isWhite).length + 1 = n ∧ a = access := by
        simpa using same
      have parts := List.takeWhile_append_dropWhile (p := Byte.isWhite) (l := rest)
      have ended := Lexeme.of_guard colon
      obtain ⟨more, colon⟩ : ∃ more, rest.dropWhile Byte.isWhite = Byte.colon :: more := by
        rw [← parts, List.takeWhile_append_dropWhile] at ended
        nth_rewrite 2 [← parts] at ended
        rw [List.drop_left] at ended
        exact List.head?_eq_some_iff.mp ended
      refine ⟨boundary, rest.takeWhile Byte.isWhite, more, ?_,
        List.all_eq_true.mp List.all_takeWhile, rfl⟩
      rw [← colon, parts]
      exact Bytes.eq_of_dropHead? dropped
    next => cases taken
  · rintro ⟨boundary, gap, rest, rfl, white, rfl⟩
    rw [if_pos boundary]
    have own : Bytes.dropHead? access.word (access.word ++ (gap ++ Byte.colon :: rest)) =
        some (gap ++ Byte.colon :: rest) := by
      rw [Bytes.dropHead?, if_pos (List.isPrefixOf_iff_prefix.mpr (List.prefix_append _ _)), List.drop_left]
    cases access <;>
      simp [List.findSome?, dropHead?_word, own, cut white, guard]

theorem of_label {access : Access} {before : Option Byte} {text : Bytes}
    (taken : label before text = some (n, access)) :
    text.head? = some 0x70 ∧ 1 < n ∧ n ≤ text.length ∧ text[n - 1]? = some Byte.colon := by
  obtain ⟨_, gap, rest, rfl, _, rfl⟩ := label_eq_some_iff.mp taken
  have word : access.word.head? = some 0x70 ∧ 1 < access.word.length := by cases access <;> decide
  refine ⟨?_, by omega, by simp only [List.length_append, List.length_cons]; omega, ?_⟩
  · rw [List.head?_append, word.1]
    rfl
  · rw [Nat.add_sub_cancel, ← List.append_assoc, ← List.length_append, List.getElem?_append_right (Nat.le_refl _),
      Nat.sub_self]
    rfl

theorem spelled_of_label {access : Access} {before : Option Byte} {text : Bytes}
    (taken : label before text = some (n, access)) :
    ∀ b ∈ text.take n, Byte.isIdent b = true ∨ Byte.isWhite b = true ∨ b = Byte.colon := by
  obtain ⟨_, gap, rest, rfl, white, rfl⟩ := label_eq_some_iff.mp taken
  have word : ∀ b ∈ access.word, Byte.isIdent b = true := by cases access <;> decide +kernel
  rw [Nat.add_assoc, List.take_length_add_append, List.take_length_add_append]
  intro b member
  rcases List.mem_append.mp member with letter | member
  · exact .inl (word b letter)
  · rcases List.mem_append.mp member with blank | colon
    · exact .inr (.inl (white b blank))
    · exact .inr (.inr (List.mem_singleton.mp colon))

end Access

/-- A label at the top level of a block, with its first byte and its colon in code position. -/
structure Marker.Inside (s : Scan) (block : Block) (m : Marker) : Prop where
  lower : block.body.start ≤ m.span.start
  ordered : m.span.start + 1 < m.span.stop
  upper : m.span.stop ≤ block.body.stop
  level : s.depthAt m.span.start = block.innerDepth
  first : ∃ c, s.cells[m.span.start]? = some c ∧ c.byte = 0x70 ∧ c.isCode = true
  last : ∃ c, s.cells[m.span.stop - 1]? = some c ∧ c.byte = Byte.colon ∧ c.isCode = true

/-- A section within the body of a block. Directly at its end the text is not nested any deeper. -/
structure BodySection.Inside (s : Scan) (block : Block) (part : BodySection) : Prop where
  lower : block.body.start ≤ part.span.start
  ordered : part.span.start ≤ part.span.stop
  upper : part.span.stop ≤ block.body.stop
  level : s.depthAt part.span.stop = block.innerDepth

namespace Sectioning

variable {s : Scan} {block : Block}

theorem view_getElem? (s : Scan) (span : Span) (i : Nat) (small : i < span.length) :
    (s.view span)[i]? = s.cells[span.start + i]?.map Cell.view := by
  simp [Scan.view, Cell.views, Span.slice, small]

/-- A label that is kept: no second colon follows it, and it stands directly in the block. -/
structure Keeps (s : Scan) (block : Block) (found : Span × Access) (m : Marker) : Prop where
  single : ((s.view block.body).drop found.1.stop).head? ≠ some Byte.colon
  level : s.depthAt (block.body.start + found.1.start) = block.innerDepth
  same : m = ⟨found.2, found.1.shift block.body.start⟩

theorem keeps_iff {found : Span × Access} {m : Marker} :
    (if ((s.view block.body).drop found.1.stop).head? = some Byte.colon then none
      else if s.depthAt (block.body.start + found.1.start) ≠ block.innerDepth then none
      else some ⟨found.2, found.1.shift block.body.start⟩) = some m ↔ Keeps s block found m := by
  split
  next colon => exact ⟨nofun, fun keeps => absurd colon keeps.single⟩
  next single =>
    split
    next apart => exact ⟨nofun, fun keeps => absurd keeps.level apart⟩
    next level =>
      refine ⟨fun same => ⟨single, not_not.mp level, (Option.some.inj same).symm⟩, ?_⟩
      rintro ⟨_, _, rfl⟩
      rfl

/-- The labels of a block are those the recogniser takes and the block keeps. -/
theorem mem_markersOf_iff_keeps {m : Marker} : m ∈ markersOf s block ↔
    ∃ found ∈ Access.label.matches (s.view block.body), Keeps s block found m :=
  List.mem_filterMap.trans (exists_congr fun _ => and_congr_right fun _ => keeps_iff)

theorem inside_of_mem_markersOf (valid : block.Located s) (member : m ∈ markersOf s block) :
    m.Inside s block := by
  obtain ⟨⟨found, access⟩, among, _, level, rfl⟩ := mem_markersOf_iff_keeps.mp member
  obtain ⟨n, before, small, taken, stop⟩ := Recogniser.mem_matches among
  obtain ⟨first, long, bound, last⟩ := Access.of_label taken
  dsimp only at small taken stop first bound last level
  have length : (s.view block.body).length = block.body.length := by
    have := valid.closing_lt_length
    simp only [Scan.view, Cell.views, List.length_map, Span.length_slice, Block.body, Scan.length,
      Span.length] at this ⊢
    omega
  have body : block.body.start + block.body.length = block.body.stop := by
    have := valid.lt
    simp only [Span.length, Block.body]
    omega
  rw [List.length_drop, length] at bound
  have cell {i : Nat} {b : Byte} (inside : i < block.body.length)
      (seen : (s.view block.body)[i]? = some b) (notSpace : b ≠ Byte.space)
      (notNewline : b ≠ Byte.newline) :
      ∃ c, s.cells[block.body.start + i]? = some c ∧ c.byte = b ∧ c.isCode = true := by
    rw [view_getElem? s _ i inside, Option.map_eq_some_iff] at seen
    obtain ⟨c, here, view⟩ := seen
    exact ⟨c, here, Cell.of_view view notSpace notNewline⟩
  rw [List.head?_drop] at first
  rw [List.getElem?_drop] at last
  have begin_ := cell (by omega) first (by decide) (by decide)
  have end_ := cell (by omega) last (by decide) (by decide)
  rw [Nat.add_comm] at begin_
  refine ⟨?_, ?_, ?_, ?_, begin_, ?_⟩
  · simp [Span.shift]
  · simp only [Span.shift]; omega
  · simp only [Span.shift]; omega
  · simpa [Span.shift, Nat.add_comm] using level
  · have place : (found.shift block.body.start).stop - 1 = block.body.start + (found.start + (n - 1)) := by
      simp only [Span.shift]; omega
    rw [place]
    exact end_

theorem spelled_of_mem_markersOf (valid : block.Located s) (member : m ∈ markersOf s block) {i : Nat}
    (lower : m.span.start ≤ i) (upper : i < m.span.stop) : ∃ c, s.cells[i]? = some c ∧
      (Byte.isIdent c.view = true ∨ Byte.isWhite c.view = true ∨ c.view = Byte.colon) := by
  have inside := inside_of_mem_markersOf valid member
  obtain ⟨⟨found, access⟩, among, _, _, rfl⟩ := mem_markersOf_iff_keeps.mp member
  obtain ⟨n, before, _, taken, stop⟩ := Recogniser.mem_matches among
  have upto := inside.upper
  simp only [Span.shift] at lower upper upto stop
  have small : i < s.length := Nat.lt_of_lt_of_le upper (Nat.le_trans upto (Nat.le_of_lt valid.closing_lt_length))
  have here : s.cells[i]? = some s.cells[i] := List.getElem?_eq_getElem small
  refine ⟨s.cells[i], here, Access.spelled_of_label taken _ (List.mem_of_getElem?
    (i := i - (found.start + block.body.start)) ?_)⟩
  rw [List.getElem?_take_of_lt (by omega), List.getElem?_drop, view_getElem? s _ _ (by
    simp only [Span.length]; omega), show block.body.start + (found.start + (i -
      (found.start + block.body.start))) = i by omega, here]
  rfl

theorem level_of_mem_markersOf (valid : block.Located s) (member : m ∈ markersOf s block) :
    s.depthAt m.span.stop = block.innerDepth := by
  have inside := inside_of_mem_markersOf valid member
  have ordered := inside.ordered
  have change := s.net_slice (by omega : m.span.start ≤ m.span.stop)
  rw [Cell.net_eq_zero, inside.level] at change
  · omega
  · intro c among
    obtain ⟨i, here⟩ := List.mem_iff_getElem?.mp among
    rw [Span.slice, List.getElem?_take, List.getElem?_drop] at here
    split at here
    next before =>
      simp only [Span.length] at before
      obtain ⟨d, there, spelled⟩ := spelled_of_mem_markersOf valid member
        (Nat.le_add_right m.span.start i) (by omega)
      obtain rfl := Option.some.inj (here.symm.trans there)
      cases code : c.isCode with
      | false => exact Cell.weight_of_not_code code
      | true =>
        apply Cell.weight_of_no_brace
        · intro same
          simp only [Cell.view, code, same] at spelled
          revert spelled
          decide
        · intro same
          simp only [Cell.view, code, same] at spelled
          revert spelled
          decide
    next => cases here

theorem markersOf_sorted (s : Scan) (block : Block) :
    (markersOf s block).Pairwise fun a b => a.span.stop ≤ b.span.start := by
  have sorted := @Recogniser.matches_sorted _ Access.label
    (fun _ _ _ _ taken => Nat.lt_of_succ_lt (Access.of_label taken).2.1) (s.view block.body)
  apply sorted.filterMap
  intro a b before m kept n kept'
  rw [(keeps_iff.mp kept).same, (keeps_iff.mp kept').same]
  simpa [Span.shift] using before

theorem mem_of_leading {p : Marker → Bool} {m : Marker}
    (first : ((markersOf s block).takeWhile p).head? = some m) : m ∈ markersOf s block :=
  (List.takeWhile_sublist p).mem (List.mem_of_head? first)

theorem mem_of_parting {p : Marker → Bool} {m : Marker}
    (first : ((markersOf s block).dropWhile p).head? = some m) : m ∈ markersOf s block :=
  (List.dropWhile_sublist p).mem (List.mem_of_head? first)

theorem leading_before_parting {leading parting : Marker}
    (first : ((markersOf s block).takeWhile Marker.isPublic).head? = some leading)
    (second : ((markersOf s block).dropWhile Marker.isPublic).head? = some parting) :
    leading.span.stop ≤ parting.span.start := by
  have sorted := markersOf_sorted s block
  rw [← List.takeWhile_append_dropWhile (p := Marker.isPublic) (l := markersOf s block)] at sorted
  exact (List.pairwise_append.mp sorted).2.2 _ (List.mem_of_head? first) _ (List.mem_of_head? second)

/-- The sections that a body is split into: up to the first public label, from there up to the first label
that is not public, and behind that one. -/
inductive Splits (body : Span) (leading parting : Option Marker) : BodySection → Prop
  | heading {m : Marker} : leading = some m → body.start < m.span.start →
      Splits body leading parting ⟨.heading, ⟨body.start, m.span.start⟩⟩
  | exposed {start stop : Nat} :
      leading = none ∧ start = body.start ∨ (∃ m, leading = some m ∧ start = m.span.stop) →
      parting = none ∧ stop = body.stop ∨ (∃ n, parting = some n ∧ stop = n.span.start) →
      Splits body leading parting ⟨.exposed, ⟨start, stop⟩⟩
  | hidden {n : Marker} : parting = some n → Splits body leading parting ⟨.hidden, ⟨n.span.stop, body.stop⟩⟩

theorem splits_of_mem_split {body : Span} {leading parting : Option Marker} {part : BodySection}
    (member : part ∈ split body leading parting) : Splits body leading parting part := by
  simp only [split, List.mem_append, List.mem_singleton] at member
  rcases member with (heading | rfl) | hidden
  · obtain ⟨m, first, made⟩ := List.mem_filterMap.mp heading
    split at made
    next begins =>
      cases made
      exact .heading (Option.mem_toList.mp first) begins
    next => cases made
  · refine .exposed ?_ ?_
    · cases leading with
      | none => exact .inl ⟨rfl, rfl⟩
      | some m => exact .inr ⟨m, rfl, rfl⟩
    · cases parting with
      | none => exact .inl ⟨rfl, rfl⟩
      | some n => exact .inr ⟨n, rfl, rfl⟩
  · obtain ⟨n, first, rfl⟩ := List.mem_map.mp hidden
    exact .hidden (Option.mem_toList.mp first)

/-- The heading, the exposed and the hidden section of a body. -/
theorem inside_of_mem_sections (valid : block.Located s) {part : BodySection}
    (member : part ∈ (of s block).sections) : part.Inside s block := by
  have body : block.body.start ≤ block.body.stop := valid.lt
  have label {m : Marker} (among : m ∈ markersOf s block) := inside_of_mem_markersOf valid among
  cases splits_of_mem_split member with
  | @heading m first begins =>
    have leads := label (mem_of_leading first)
    have short := leads.ordered
    have upper := leads.upper
    exact ⟨Nat.le_refl _, leads.lower, by dsimp only; omega, leads.level⟩
  | @exposed start stop starts stops =>
    have lower : block.body.start ≤ start ∧ start ≤ block.body.stop := by
      rcases starts with ⟨_, rfl⟩ | ⟨m, first, rfl⟩
      · exact ⟨Nat.le_refl _, body⟩
      · have leads := label (mem_of_leading first)
        have short := leads.ordered
        have before := leads.lower
        exact ⟨by omega, leads.upper⟩
    rcases stops with ⟨_, rfl⟩ | ⟨n, second, rfl⟩
    · exact ⟨lower.1, lower.2, Nat.le_refl _, valid.inner⟩
    · have parts := label (mem_of_parting second)
      have short := parts.ordered
      have upper := parts.upper
      refine ⟨lower.1, ?_, by dsimp only; omega, parts.level⟩
      rcases starts with ⟨_, rfl⟩ | ⟨m, first, rfl⟩
      · exact parts.lower
      · exact leading_before_parting first second
  | @hidden n second =>
    have parts := label (mem_of_parting second)
    have short := parts.ordered
    have lower := parts.lower
    exact ⟨by dsimp only; omega, parts.upper, Nat.le_refl _, valid.inner⟩

/-- A section begins with the body, or behind a label. -/
theorem start_of_mem_sections {part : BodySection} (member : part ∈ (of s block).sections) :
    part.span.start = block.body.start ∨ ∃ m ∈ markersOf s block, m.span.stop = part.span.start := by
  cases splits_of_mem_split member with
  | heading => exact .inl rfl
  | exposed starts =>
    rcases starts with ⟨_, rfl⟩ | ⟨m, first, rfl⟩
    · exact .inl rfl
    · exact .inr ⟨m, mem_of_leading first, rfl⟩
  | hidden second => exact .inr ⟨_, mem_of_parting second, rfl⟩

theorem start_level (valid : block.Located s) {part : BodySection} (member : part ∈ (of s block).sections) :
    s.depthAt part.span.start = block.innerDepth := by
  rcases start_of_mem_sections member with same | ⟨m, among, same⟩
  · rw [same, valid.begin]
  · rw [← same, level_of_mem_markersOf valid among]

/-- A label stands between two sections. -/
theorem sections_apart (valid : block.Located s) :
    (of s block).sections.Pairwise fun a b => a.span.stop < b.span.start := by
  have exposed_inside := fun part member => (@inside_of_mem_sections s block valid part member).ordered
  have ordered := @leading_before_parting s block
  have short : ∀ m ∈ markersOf s block, m.span.start < m.span.stop := fun m member => by
    have := (inside_of_mem_markersOf valid member).ordered
    omega
  simp only [of] at exposed_inside ⊢
  generalize first : ((markersOf s block).takeWhile Marker.isPublic).head? = leading at *
  generalize second : ((markersOf s block).dropWhile Marker.isPublic).head? = parting at *
  have leads (m : Marker) (here : leading = some m) : m.span.start < m.span.stop :=
    short m (mem_of_leading (first.trans here))
  have parts (m : Marker) (here : parting = some m) : m.span.start < m.span.stop :=
    short m (mem_of_parting (second.trans here))
  have middle := exposed_inside _ (List.mem_append_left _ (List.mem_append_right _ (.head _)))
  dsimp only at middle
  have headings : ∀ a ∈ leading.toList.filterMap (fun m =>
      if block.body.start < m.span.start then
        some (BodySection.mk .heading ⟨block.body.start, m.span.start⟩) else none),
      a.span.stop < (leading.map (·.span.stop)).getD block.body.start := by
    intro a member
    cases leading with
    | none => cases member
    | some m =>
      have := leads m rfl
      by_cases some_heading : block.body.start < m.span.start
      · obtain rfl : a = _ := by simpa [some_heading] using member
        exact this
      · simp [some_heading] at member
  have hiddens : ∀ b ∈ parting.toList.map (fun m =>
      BodySection.mk .hidden ⟨m.span.stop, block.body.stop⟩),
      (parting.map (·.span.start)).getD block.body.stop < b.span.start := by
    intro b member
    cases parting with
    | none => cases member
    | some n =>
      obtain rfl : b = _ := by simpa using member
      exact parts n rfl
  unfold split
  rw [List.pairwise_append, List.pairwise_append]
  refine ⟨⟨?_, List.pairwise_singleton _ _, ?_⟩, ?_, ?_⟩
  · cases leading <;> simp [List.pairwise_filterMap]
  · intro a heading b exposed
    obtain rfl := List.mem_singleton.mp exposed
    exact headings a heading
  · cases parting <;> simp
  · intro a before b hidden
    have after := hiddens b hidden
    rcases List.mem_append.mp before with heading | exposed
    · have := headings a heading
      omega
    · obtain rfl := List.mem_singleton.mp exposed
      exact after

/-- No two sections meet. -/
theorem eq_of_mem_sections (valid : block.Located s) {part other : BodySection} {i : Nat}
    (member : part ∈ (of s block).sections) (member' : other ∈ (of s block).sections)
    (lower : part.span.start ≤ i) (upper : i ≤ part.span.stop) (lower' : other.span.start ≤ i)
    (upper' : i ≤ other.span.stop) : part = other := by
  have apart := List.pairwise_iff_getElem.mp (sections_apart valid)
  obtain ⟨j, hj, rfl⟩ := List.mem_iff_getElem.mp member
  obtain ⟨k, hk, rfl⟩ := List.mem_iff_getElem.mp member'
  rcases Nat.lt_trichotomy j k with less | rfl | more
  · have := apart j k hj hk less
    omega
  · rfl
  · have := apart k j hk hj more
    omega

theorem sections_sorted (valid : block.Located s) :
    (of s block).sections.Pairwise fun a b => a.span.stop ≤ b.span.start :=
  (sections_apart valid).imp Nat.le_of_lt

/-- A hidden section goes from the first label that is not public to the end of the body. -/
theorem hidden_of_mem {part : BodySection} (member : part ∈ (of s block).sections)
    (kind : part.kind = .hidden) :
    ∃ m, ((markersOf s block).dropWhile Marker.isPublic).head? = some m ∧
      part = ⟨.hidden, ⟨m.span.stop, block.body.stop⟩⟩ := by
  simp only [of, split, List.mem_append, List.mem_singleton] at member
  rcases member with (heading | rfl) | hidden
  · obtain ⟨m, _, made⟩ := List.mem_filterMap.mp heading
    split at made
    · cases made
      cases kind
    · cases made
  · cases kind
  · obtain ⟨m, among, rfl⟩ := List.mem_map.mp hidden
    exact ⟨m, Option.mem_toList.mp among, rfl⟩

theorem of_hidden? {part : BodySection} (found : (of s block).hidden? = some part) :
    part ∈ (of s block).sections ∧ part.kind = .hidden :=
  ⟨List.mem_of_find?_eq_some found, by simpa using List.find?_some found⟩

theorem eq_of_hidden? {part other : BodySection} (found : (of s block).hidden? = some part)
    (member : other ∈ (of s block).sections) (kind : other.kind = .hidden) : other = part := by
  obtain ⟨m, first, rfl⟩ := hidden_of_mem member kind
  obtain ⟨n, second, rfl⟩ := hidden_of_mem (of_hidden? found).1 (of_hidden? found).2
  obtain rfl : m = n := Option.some.inj (first.symm.trans second)
  rfl

end Sectioning
end OutOfLine
