import Mathlib.Data.List.TakeWhile
import OutOfLine.Proofs.Sorting
import OutOfLine.Proofs.Splice

/-! Which labels a class body has, each told by its own cells and the two next to them. The
sections and the labels between them tile the body. -/

namespace OutOfLine

open Cell

/-- A label at the top level of a block: the word for an access, white space and a colon, where no word goes on
in front of it and no second colon stands behind it. -/
structure Marker.At (s : Scan) (block : Block) (m : Marker) : Prop where
  lower : block.body.start ≤ m.span.start
  upper : m.span.stop ≤ block.body.stop
  spelled : ∃ gap, (∀ b ∈ gap, Byte.isWhite b = true) ∧
    s.view m.span = m.access.word ++ (gap ++ [Byte.colon])
  apart : ∀ c, s.cells[m.span.start - 1]? = some c → Byte.isIdent c.view = false
  single : ∀ c, s.cells[m.span.stop]? = some c → c.view ≠ Byte.colon
  level : s.depthAt m.span.start = block.innerDepth

theorem Access.isIdent_word (access : Access) : ∀ b ∈ access.word, Byte.isIdent b = true := by
  cases access <;> decide +kernel

namespace Marker.At

variable {s : Scan} {block : Block} {m : Marker}

theorem length_word (stands : m.At s block) : m.access.word.length < m.span.length := by
  obtain ⟨gap, _, spelled⟩ := stands.spelled
  have long := congrArg List.length spelled
  rw [Scan.view, length_views, Span.slice, List.length_take, List.length_append, List.length_append,
    List.length_singleton] at long
  omega

theorem getElem?_word (stands : m.At s block) {i : Nat} (small : i < m.access.word.length) :
    s.cells[m.span.start + i]? = some ⟨m.access.word[i], .code⟩ := by
  obtain ⟨gap, _, spelled⟩ := stands.spelled
  have seen := Sectioning.view_getElem? s m.span i (Nat.lt_trans small stands.length_word)
  rw [spelled, List.getElem?_append_left small, List.getElem?_eq_getElem small] at seen
  obtain ⟨c, there, view⟩ := Option.map_eq_some_iff.mp seen.symm
  obtain ⟨same, code⟩ := of_view_ident (view ▸ m.access.isIdent_word _ (List.getElem_mem small))
  rw [there, ← view, same]
  exact congrArg (fun cls => some (Cell.mk c.byte cls)) (by simpa [isCode] using code)

theorem behind_word (stands : m.At s block) {c : Cell}
    (there : s.cells[m.span.start + m.access.word.length]? = some c) : Byte.isIdent c.view = false := by
  obtain ⟨gap, white, spelled⟩ := stands.spelled
  have seen := Sectioning.view_getElem? s m.span _ stands.length_word
  rw [spelled, there, List.getElem?_append_right (Nat.le_refl _), Nat.sub_self] at seen
  cases gap with
  | nil => rw [← Option.some.inj seen]; rfl
  | cons b gap =>
    rw [← Option.some.inj seen]
    exact Bytes.not_ident_of_white (white b (.head _))

theorem spelled_of_inside (stands : m.At s block) {i : Nat} {c : Cell} (lower : m.span.start ≤ i)
    (upper : i < m.span.stop) (there : s.cells[i]? = some c) :
    Byte.isIdent c.view = true ∨ Byte.isWhite c.view = true ∨ c.view = Byte.colon := by
  obtain ⟨gap, white, spelled⟩ := stands.spelled
  have seen := Sectioning.view_getElem? s m.span (i - m.span.start) (Nat.sub_lt_sub_right lower upper)
  rw [Nat.add_sub_cancel' lower, there, spelled] at seen
  have member := List.mem_of_getElem? seen
  simp only [List.mem_append, List.mem_singleton] at member
  rcases member with own | blank | colon
  · exact .inl (m.access.isIdent_word _ own)
  · exact .inr (.inl (white _ blank))
  · exact .inr (.inr colon)

end Marker.At

namespace Access

theorem first_word (access : Access) : ∃ rest, access.word = 0x70 :: rest := by
  cases access <;> exact ⟨_, rfl⟩

/-- No label begins within another one. -/
theorem not_within {before before' : Option Byte} {text : Bytes} {k : Nat} {access other : Access}
    (taken : label before text = some (n, access)) (later : label before' (text.drop k) = some (n', other))
    (previous : before' = text[k - 1]?) (positive : 0 < k) : n ≤ k := by
  obtain ⟨_, gap, rest, rfl, white, rfl⟩ := label_eq_some_iff.mp taken
  obtain ⟨boundary, _, _, begins, _⟩ := label_eq_some_iff.mp later
  obtain ⟨more, own⟩ := other.first_word
  rw [begins, own, List.cons_append, List.head?_cons] at boundary
  have first : (access.word ++ (gap ++ Byte.colon :: rest))[k]? = some 0x70 := by
    rw [← List.head?_drop, begins, own]
    rfl
  by_contra inside
  by_cases word : k < access.word.length
  · have letter := access.isIdent_word _ (List.getElem_mem (show k - 1 < access.word.length by omega))
    rw [List.getElem?_append_left (by omega), List.getElem?_eq_getElem (by omega)] at previous
    rw [previous, isWordBoundary, Option.any_some, letter] at boundary
    cases boundary
  · rw [List.getElem?_append_right (by omega)] at first
    by_cases blank : k - access.word.length < gap.length
    · rw [List.getElem?_append_left blank] at first
      cases white _ (List.mem_of_getElem? first)
    · rw [show k - access.word.length = gap.length by omega, List.getElem?_append_right (Nat.le_refl _),
        Nat.sub_self, List.getElem?_cons_zero] at first
      cases first

end Access

namespace Sectioning

variable {s : Scan} {block : Block} {m : Marker}

theorem view_part {start stop : Nat} (lower : block.body.start ≤ start) (upper : stop ≤ block.body.stop) :
    s.view ⟨start, stop⟩ = ((s.view block.body).drop (start - block.body.start)).take (stop - start) := by
  simp only [Scan.view, views, Span.slice, Span.length, ← List.map_drop, ← List.map_take, List.drop_take,
    List.take_take, List.drop_drop]
  rw [Nat.add_sub_cancel' lower, Nat.min_eq_left (by omega)]

theorem exists_seen (valid : block.Located s) {i : Nat} (small : block.body.start + i < block.body.stop) :
    ∃ c, s.cells[block.body.start + i]? = some c ∧ (s.view block.body)[i]? = some c.view := by
  have bound : block.body.start + i < s.cells.length := Nat.lt_trans small valid.closing_lt_length
  have here := List.getElem?_eq_getElem bound
  exact ⟨_, here, by rw [view_getElem? s _ i (Nat.lt_sub_iff_add_lt'.mpr small), here, Option.map_some]⟩

theorem length_view_body (valid : block.Located s) : (s.view block.body).length = block.body.length := by
  have closing := valid.closing_lt_length
  rw [Scan.view, views, List.length_map, Span.length_slice]
  exact Nat.min_eq_left (Nat.sub_le_sub_right (Nat.le_of_lt closing) _)

/-- The first letter of a label is on a boundary where no word stands in front of it: a body has its brace
there. -/
theorem boundary_iff (valid : block.Located s) {i : Nat} (small : block.body.start + i < block.body.stop)
    (access : Access) (rest : Bytes) :
    isWordBoundary (Recogniser.previous none (s.view block.body) i) (access.word ++ rest).head? = true ↔
      ∀ c, s.cells[block.body.start + i - 1]? = some c → Byte.isIdent c.view = false := by
  obtain ⟨more, word⟩ := access.first_word
  rw [word, List.cons_append, List.head?_cons, Recogniser.previous]
  split
  next zero =>
    refine ⟨fun _ c before => ?_, fun _ => rfl⟩
    obtain ⟨first, at_first, opens⟩ := valid.opening
    rw [zero, Nat.add_zero] at before
    obtain rfl := Option.some.inj (at_first.symm.trans before)
    rw [view_of_isCodeByte rfl opens]
    rfl
  next positive =>
    obtain ⟨d, there, seen⟩ := exists_seen valid (i := i - 1) (by omega)
    rw [← Nat.add_sub_assoc (by omega)] at there
    rw [seen, isWordBoundary, Option.any_some, there]
    constructor
    · intro boundary c same
      obtain rfl := Option.some.inj same
      cases letter : Byte.isIdent d.view with
      | false => rfl
      | true =>
        rw [letter] at boundary
        cases boundary
    · intro apart
      rw [apart d rfl]
      rfl

/-- Behind a body stands its brace, and so no colon. -/
theorem head?_drop_view (valid : block.Located s) {j : Nat} (upper : block.body.start + j ≤ block.body.stop) :
    ((s.view block.body).drop j).head? = some Byte.colon ↔
      ∃ c, s.cells[block.body.start + j]? = some c ∧ c.view = Byte.colon := by
  rw [List.head?_drop]
  obtain last | before := Nat.eq_or_lt_of_le upper
  · have size := length_view_body valid
    have span : block.body.length = block.body.stop - block.body.start := rfl
    rw [List.getElem?_eq_none (by omega), last]
    refine ⟨fun absent => (by cases absent), ?_⟩
    rintro ⟨c, behind, colon⟩
    obtain ⟨last_cell, at_last, closes⟩ := valid.closing
    obtain rfl := Option.some.inj (at_last.symm.trans behind)
    rw [view_of_isCodeByte rfl closes] at colon
    cases colon
  · obtain ⟨d, there, seen⟩ := exists_seen valid before
    simp [seen, there]

theorem at_of_mem_markersOf (valid : block.Located s) (member : m ∈ markersOf s block) : m.At s block := by
  have inside := inside_of_mem_markersOf valid member
  obtain ⟨⟨⟨i, j⟩, access⟩, among, single, _, rfl⟩ := mem_markersOf_iff_keeps.mp member
  obtain ⟨n, small, taken, stop⟩ := Recogniser.taken_of_mem_matches among
  obtain ⟨boundary, gap, rest, text, white, long⟩ := Access.label_eq_some_iff.mp taken
  simp only at small taken stop boundary text single
  obtain ⟨lower, short, upper, level, _⟩ := inside
  simp only [Span.shift] at lower short upper level
  rw [Nat.add_comm i] at lower level
  rw [Nat.add_comm j] at upper
  rw [ne_eq, head?_drop_view valid upper] at single
  rw [text, boundary_iff valid (by omega)] at boundary
  refine ⟨?_, ?_, ⟨gap, white, ?_⟩, ?_, fun c behind colon => ?_, ?_⟩ <;>
    simp only [Span.shift, Nat.add_comm _ block.body.start] at *
  · exact lower
  · exact upper
  · rw [view_part lower upper, Nat.add_sub_cancel_left, text, Nat.add_sub_add_left,
      show j - i = (access.word ++ (gap ++ [Byte.colon])).length by simp; omega,
      show access.word ++ (gap ++ Byte.colon :: rest) = access.word ++ (gap ++ [Byte.colon]) ++ rest by simp,
      List.take_left]
  · exact boundary
  · exact single ⟨c, behind, colon⟩
  · exact level

/-- What stands in a body as a label is one to the recogniser. -/
theorem taken_of_at (valid : block.Located s) {access : Access} {i n : Nat}
    (stands : Marker.At s block ⟨access, ⟨block.body.start + i, block.body.start + (i + n)⟩⟩) :
    i + n ≤ (s.view block.body).length ∧
      Access.label (Recogniser.previous none (s.view block.body) i) ((s.view block.body).drop i) =
        some (n, access) := by
  have short := stands.length_word
  obtain ⟨lower, upper, ⟨gap, white, spelled⟩, apart, _, _⟩ := stands
  simp only [Span.length] at short lower upper spelled apart
  have size := length_view_body valid
  have span : block.body.length = block.body.stop - block.body.start := rfl
  have part := view_part (s := s) lower upper
  rw [spelled, Nat.add_sub_cancel_left, Nat.add_sub_add_left, Nat.add_sub_cancel_left] at part
  have long := congrArg List.length part
  rw [List.length_take, List.length_drop, size, List.length_append, List.length_append,
    List.length_singleton] at long
  have text : (s.view block.body).drop i =
      access.word ++ (gap ++ Byte.colon :: ((s.view block.body).drop i).drop n) := by
    conv_lhs => rw [← List.take_append_drop n ((s.view block.body).drop i), ← part]
    simp
  refine ⟨by omega, Access.label_eq_some_iff.mpr ⟨?_, gap, _, text, white, by omega⟩⟩
  rw [text, boundary_iff valid (by omega)]
  exact apart

theorem mem_markersOf_of_at (valid : block.Located s) (at_ : m.At s block) : m ∈ markersOf s block := by
  obtain ⟨access, start, stop⟩ := m
  have short := at_.length_word
  obtain ⟨i, rfl⟩ := Nat.exists_eq_add_of_le at_.lower
  simp only [Span.length] at short
  obtain ⟨n, rfl⟩ : ∃ n, stop = block.body.start + (i + n) := ⟨stop - (block.body.start + i), by omega⟩
  obtain ⟨bound, taken⟩ := taken_of_at valid at_
  obtain ⟨lower, upper, _, _, single, level⟩ := at_
  simp only at lower upper single level
  obtain ⟨⟨⟨i', j'⟩, access'⟩, among, place⟩ : ∃ found ∈ Access.label.matches (s.view block.body),
      found.1.start = 0 + i ∨ found.1.start < 0 + i ∧ 0 + i < found.1.stop :=
    Recogniser.covered_of_taken (Nat.zero_le i) (by omega) (by rw [taken]; rfl)
  obtain ⟨n', _, taken', stop⟩ := Recogniser.taken_of_mem_matches among
  simp only [Nat.zero_add] at place taken' stop
  rcases place with rfl | ⟨before, within⟩
  · obtain ⟨rfl, rfl⟩ : n = n' ∧ access = access' := by simpa using taken.symm.trans taken'
    subst stop
    refine mem_markersOf_iff_keeps.mpr ⟨_, among, fun colon => ?_, level, ?_⟩
    · obtain ⟨c, behind, same⟩ := (head?_drop_view valid upper).mp colon
      exact single c behind same
    · simp only [Span.shift, Nat.add_comm _ block.body.start]
  · have later : Access.label (Recogniser.previous none (s.view block.body) i)
        (((s.view block.body).drop i').drop (i - i')) = some (n, access) := by
      rw [List.drop_drop, Nat.add_sub_cancel' (Nat.le_of_lt before), taken]
    have := Access.not_within taken' later (by
      rw [Recogniser.previous, if_neg (by omega), List.getElem?_drop]
      congr 1
      omega) (by omega)
    omega

/-- The labels of a block are all that stand in it. -/
theorem mem_markersOf_iff (valid : block.Located s) : m ∈ markersOf s block ↔ m.At s block :=
  ⟨at_of_mem_markersOf valid, mem_markersOf_of_at valid⟩

/-- Labels that stand in order are those of a block, if they are all of them. -/
theorem markersOf_eq (valid : block.Located s) {markers : List Marker}
    (sorted : markers.Pairwise fun a b => a.span.start < b.span.start)
    (all : ∀ m, m ∈ markers ↔ m.At s block) : markersOf s block = markers := by
  refine List.Pairwise.eq_of_mem_iff ?_ sorted fun m => (mem_markersOf_iff valid).trans (all m).symm
  refine (markersOf_sorted s block).imp_of_mem fun {m _} member _ before => ?_
  have := (inside_of_mem_markersOf valid member).ordered
  omega

end Sectioning

/-- Spans that stand one behind the other, from `start` to `stop`. -/
inductive Span.Tiles : (start stop : Nat) → List Span → Prop
  | nil {start : Nat} : Tiles start start []
  | cons {start middle stop : Nat} {spans : List Span} :
      start ≤ middle → Tiles middle stop spans → Tiles start stop (⟨start, middle⟩ :: spans)

namespace Span.Tiles

theorem le {start stop : Nat} {spans : List Span} (tiles : Tiles start stop spans) : start ≤ stop := by
  induction tiles with
  | nil => exact Nat.le_refl _
  | cons order _ ih => exact Nat.le_trans order ih

theorem singleton {start stop : Nat} (order : start ≤ stop) : Tiles start stop [⟨start, stop⟩] := .cons order .nil

theorem append {start middle stop : Nat} {first second : List Span} (one : Tiles start middle first)
    (two : Tiles middle stop second) : Tiles start stop (first ++ second) := by
  induction one with
  | nil => exact two
  | cons order _ ih => exact .cons order (ih two)

/-- What stands at the spans is the text from `start` to `stop`. -/
theorem flatMap_slice {start stop : Nat} {spans : List Span} (tiles : Tiles start stop spans) (items : List α) :
    spans.flatMap (·.slice items) = (Span.mk start stop).slice items := by
  induction tiles with
  | nil => exact (slice_self _ items).symm
  | cons order later ih => rw [List.flatMap_cons, ih, slice_append_slice order later.le]

end Span.Tiles

namespace Sectioning

def borders (parts : Sectioning) : List Marker :=
  (parts.markers.head?.filter Marker.isPublic).toList ++ (parts.markers.find? fun m => !m.isPublic).toList

/-- What a sectioning of the body of a block is: its labels are all that stand in it, its sections and the labels
between them make up the body, and the labels that are not public stand behind every section that is shown. -/
structure Partitions (s : Scan) (block : Block) (parts : Sectioning) : Prop where
  markers (m : Marker) : m ∈ parts.markers ↔ m.At s block
  ordered : parts.markers.Pairwise fun a b => a.span.stop ≤ b.span.start
  kinds : (parts.sections.map (·.kind)).Sublist [.heading, .exposed, .hidden]
  apart : parts.sections.Pairwise fun a b => a.span.stop < b.span.start
  covers : ∃ pieces, pieces.Perm (parts.sections.map (·.span) ++ parts.borders.map (·.span)) ∧
    Span.Tiles block.body.start block.body.stop pieces ∧
    pieces.flatMap (·.slice s.cells) = block.body.slice s.cells
  extra (m : Marker) : m ∈ parts.extraMarkers ↔
    m ∈ parts.markers ∧ ∃ part ∈ parts.sections, part.kind = .hidden ∧ part.span.encloses m.span = true
  clear : ∀ part ∈ parts.sections, part.kind ≠ .hidden → ∀ m ∈ parts.markers, m.isPublic = false →
    part.span.stop ≤ m.span.start

variable {s : Scan} {block : Block}

theorem kinds_split (body : Span) (leading parting : Option Marker) :
    ((split body leading parting).map (·.kind)).Sublist [.heading, .exposed, .hidden] := by
  have headings : ((leading.toList.filterMap fun m => if body.start < m.span.start then
      some (BodySection.mk .heading ⟨body.start, m.span.start⟩) else none).map (·.kind)).Sublist [.heading] := by
    cases leading with
    | none => exact List.nil_sublist _
    | some m => by_cases some_heading : body.start < m.span.start <;> simp [some_heading]
  have hiddens : ((parting.toList.map fun n =>
      BodySection.mk .hidden ⟨n.span.stop, body.stop⟩).map (·.kind)).Sublist [.hidden] := by
    cases parting <;> simp
  rw [split, List.map_append, List.map_append]
  exact (headings.append (.refl _)).append hiddens

theorem tiles_split {body : Span} {leading parting : Option Marker}
    (leads : ∀ m ∈ leading, body.start ≤ m.span.start ∧ m.span.start ≤ m.span.stop)
    (parts : ∀ n ∈ parting, n.span.start ≤ n.span.stop ∧ n.span.stop ≤ body.stop)
    (order : (leading.map (·.span.stop)).getD body.start ≤ (parting.map (·.span.start)).getD body.stop) :
    ∃ pieces, pieces.Perm ((split body leading parting).map (·.span) ++
        (leading.toList ++ parting.toList).map (·.span)) ∧ Span.Tiles body.start body.stop pieces := by
  let headings := leading.toList.filterMap fun m =>
    if body.start < m.span.start then some (BodySection.mk .heading ⟨body.start, m.span.start⟩) else none
  let hiddens := parting.toList.map fun n => BodySection.mk .hidden ⟨n.span.stop, body.stop⟩
  have front : Span.Tiles body.start ((leading.map (·.span.stop)).getD body.start)
      (headings.map (·.span) ++ leading.toList.map (·.span)) := by
    cases leading with
    | none => exact .nil
    | some m =>
      obtain ⟨lower, own⟩ := leads m rfl
      by_cases some_heading : body.start < m.span.start
      · simpa [headings, some_heading] using (Span.Tiles.singleton lower).append (.singleton own)
      · have none_before : m.span.start = body.start := by omega
        simpa [headings, some_heading, ← none_before] using Span.Tiles.singleton own
  have back : Span.Tiles ((parting.map (·.span.start)).getD body.stop) body.stop
      (parting.toList.map (·.span) ++ hiddens.map (·.span)) := by
    cases parting with
    | none => exact .nil
    | some n =>
      obtain ⟨own, upper⟩ := parts n rfl
      exact (Span.Tiles.singleton own).append (.singleton upper)
  refine ⟨_, ?_, front.append ((Span.Tiles.singleton order).append back)⟩
  rw [split, List.map_append, List.map_append, List.map_append, List.perm_iff_count]
  intro span
  simp only [List.count_append, List.map_cons, List.map_nil, headings, hiddens]
  omega

theorem borders_of (s : Scan) (block : Block) : (of s block).borders =
    ((markersOf s block).takeWhile Marker.isPublic).head?.toList ++
      ((markersOf s block).dropWhile Marker.isPublic).head?.toList := by
  rw [List.head?_takeWhile, ← List.find?_not_eq_head?_dropWhile]
  rfl

/-- The sections and their borders, from the beginning of the body to its end. -/
theorem exists_pieces (valid : block.Located s) :
    ∃ pieces, pieces.Perm ((of s block).sections.map (·.span) ++ (of s block).borders.map (·.span)) ∧
      Span.Tiles block.body.start block.body.stop pieces := by
  have inside (m : Marker) (member : m ∈ markersOf s block) : block.body.start ≤ m.span.start ∧
      m.span.start ≤ m.span.stop ∧ m.span.stop ≤ block.body.stop := by
    obtain ⟨lower, ordered, upper, _⟩ := inside_of_mem_markersOf valid member
    omega
  have exposed := inside_of_mem_sections valid (List.mem_append_left _ (List.mem_append_right _ (.head _)))
  rw [borders_of]
  refine tiles_split (fun m first => ?_) (fun n first => ?_) exposed.ordered
  · obtain ⟨lower, own, _⟩ := inside m (mem_of_leading first)
    exact ⟨lower, own⟩
  · exact (inside n (mem_of_parting first)).2

theorem around_parting {n : Marker} {later : List Marker}
    (parting : (markersOf s block).dropWhile Marker.isPublic = n :: later) :
    n ∈ markersOf s block ∧
      (∀ m ∈ (markersOf s block).takeWhile Marker.isPublic, m.span.stop ≤ n.span.start) ∧
      ∀ m ∈ later, n.span.stop ≤ m.span.start := by
  have sorted := markersOf_sorted s block
  rw [← List.takeWhile_append_dropWhile (p := Marker.isPublic) (l := markersOf s block), parting,
    List.pairwise_append, List.pairwise_cons] at sorted
  obtain ⟨_, ⟨behind, _⟩, before⟩ := sorted
  have own : n ∈ (markersOf s block).dropWhile Marker.isPublic := parting ▸ List.mem_cons_self
  exact ⟨(List.dropWhile_sublist _).mem own, fun m member => before m member n (.head _), behind⟩

theorem mem_markersOf_cases {m : Marker} (member : m ∈ markersOf s block) :
    m ∈ (markersOf s block).takeWhile Marker.isPublic ∨ m ∈ (markersOf s block).dropWhile Marker.isPublic :=
  List.mem_append.mp (by rwa [List.takeWhile_append_dropWhile])

theorem mem_extraMarkers_iff (valid : block.Located s) (m : Marker) : m ∈ (of s block).extraMarkers ↔
    m ∈ markersOf s block ∧
      ∃ part ∈ (of s block).sections, part.kind = .hidden ∧ part.span.encloses m.span = true := by
  have inside (m : Marker) (member : m ∈ markersOf s block) := inside_of_mem_markersOf valid member
  have extra : (of s block).extraMarkers = ((markersOf s block).dropWhile Marker.isPublic).tail := rfl
  rw [extra]
  constructor
  · intro behind
    obtain ⟨n, later, parting⟩ := List.exists_cons_of_ne_nil (List.ne_nil_of_mem (List.mem_of_mem_tail behind))
    have among := (List.dropWhile_sublist _).mem (List.mem_of_mem_tail behind)
    rw [parting] at behind
    have lower := (around_parting parting).2.2 m behind
    refine ⟨among, ⟨.hidden, ⟨n.span.stop, block.body.stop⟩⟩, by simp [of, split, parting], rfl, ?_⟩
    simp [Span.encloses, lower, (inside m among).upper]
  · rintro ⟨among, part, member, kind, encloses⟩
    obtain ⟨n, first, rfl⟩ := hidden_of_mem member kind
    obtain ⟨later, parting⟩ := List.head?_eq_some_iff.mp first
    obtain ⟨among_n, before, _⟩ := around_parting parting
    have lower : n.span.stop ≤ m.span.start := by
      simp only [Span.encloses, Bool.and_eq_true, decide_eq_true_eq] at encloses
      exact encloses.1
    have own := (inside m among).ordered
    have short := (inside n among_n).ordered
    rcases mem_markersOf_cases among with front | behind
    · have := before m front
      omega
    · rw [parting] at behind ⊢
      rcases List.mem_cons.mp behind with rfl | behind
      · omega
      · exact behind

/-- In front of the first label that is not public end all sections but the hidden one. -/
theorem stop_le_parting (valid : block.Located s) {part : BodySection} {n : Marker}
    (first : ((markersOf s block).dropWhile Marker.isPublic).head? = some n) (member : part ∈ (of s block).sections)
    (shown : part.kind ≠ .hidden) : part.span.stop ≤ n.span.start := by
  cases splits_of_mem_split member with
  | heading leads =>
    have own := (inside_of_mem_markersOf valid (mem_of_leading leads)).ordered
    have := leading_before_parting leads first
    dsimp only
    omega
  | exposed _ stops =>
    rcases stops with ⟨none, _⟩ | ⟨m, second, rfl⟩
    · cases first.symm.trans none
    · cases first.symm.trans second
      exact Nat.le_refl _
  | hidden => exact absurd rfl shown

theorem stop_le_of_not_public (valid : block.Located s) {part : BodySection} {m : Marker}
    (member : part ∈ (of s block).sections) (shown : part.kind ≠ .hidden) (among : m ∈ markersOf s block)
    (parts : m.isPublic = false) : part.span.stop ≤ m.span.start := by
  have behind : m ∈ (markersOf s block).dropWhile Marker.isPublic := by
    refine (mem_markersOf_cases among).resolve_left fun front => ?_
    rw [List.mem_takeWhile_imp front] at parts
    cases parts
  obtain ⟨n, later, parting⟩ := List.exists_cons_of_ne_nil (List.ne_nil_of_mem behind)
  obtain ⟨among_n, _, after⟩ := around_parting parting
  have stop := stop_le_parting valid (by rw [parting]; rfl) member shown
  rw [parting] at behind
  rcases List.mem_cons.mp behind with rfl | behind
  · exact stop
  · have := after m behind
    have := (inside_of_mem_markersOf valid among_n).ordered
    omega

/-- The sections of every block that is located in a text partition its body, with the labels between them. -/
theorem partitions_of_locateBlock {anchor : Nat} (located : s.locateBlock anchor = .ok block) :
    (of s block).Partitions s block := by
  have valid := (Scan.located_of_locateBlock located).1
  obtain ⟨pieces, all, tiles⟩ := exists_pieces valid
  exact
    { markers m := mem_markersOf_iff valid
      ordered := markersOf_sorted s block
      kinds := kinds_split _ _ _
      apart := sections_apart valid
      covers := ⟨pieces, all, tiles, tiles.flatMap_slice s.cells⟩
      extra := mem_extraMarkers_iff valid
      clear part member shown m among parts := stop_le_of_not_public valid member shown among parts }

theorem partitions_of_locateBlock_small :
    let text := utf8 "class M \x7b\n int a;\npublic:\n struct N \x7b private: int b; \x7d;\n" ++
      utf8 "protected :\n p::public::q c;\npublic: \n\x7d;"
    ∃ s block, Scan.of text = .ok s ∧ s.locateBlock 0 = .ok block ∧ (of s block).Partitions s block ∧
      of s block =
        { sections := [⟨.heading, ⟨9, 18⟩⟩, ⟨.exposed, ⟨25, 57⟩⟩, ⟨.hidden, ⟨68, 95⟩⟩]
          markers := [⟨.pub, ⟨18, 25⟩⟩, ⟨.prot, ⟨57, 68⟩⟩, ⟨.pub, ⟨86, 93⟩⟩]
          extraMarkers := [⟨.pub, ⟨86, 93⟩⟩] } := by
  intro text
  have found : (Scan.of text >>= fun s => (s.locateBlock 0).map fun block => of s block) = .ok
      { sections := [⟨.heading, ⟨9, 18⟩⟩, ⟨.exposed, ⟨25, 57⟩⟩, ⟨.hidden, ⟨68, 95⟩⟩]
        markers := [⟨.pub, ⟨18, 25⟩⟩, ⟨.prot, ⟨57, 68⟩⟩, ⟨.pub, ⟨86, 93⟩⟩]
        extraMarkers := [⟨.pub, ⟨86, 93⟩⟩] } := by decide +kernel
  obtain ⟨s, scanned, found⟩ := Except.of_bind_eq_ok found
  obtain ⟨block, located, parts⟩ := Except.of_map_eq_ok found
  exact ⟨s, block, scanned, located, partitions_of_locateBlock located, parts⟩

end Sectioning
end OutOfLine
