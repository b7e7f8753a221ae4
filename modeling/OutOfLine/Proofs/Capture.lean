import Mathlib.Data.List.Nodup
import OutOfLine.Proofs.Scan.Character

/-! Substitutions in a body: a text without delimiters and braces is put for another one. If no
text that is looked for can overlap itself, the occurrences are those that one pass from the left
finds. -/

namespace OutOfLine

theorem Bytes.prefix_of_mem_occurrencesFrom {needle all text : Bytes} {covered at_ k : Nat}
    (left : all.drop at_ = text) (member : k ∈ occurrencesFrom needle covered at_ text) :
    needle <+: all.drop k := by
  induction text generalizing covered at_ with
  | nil => cases covered <;> cases member
  | cons b text ih =>
    have rest : all.drop (at_ + 1) = text := by
      rw [← List.drop_drop, left]
      rfl
    cases covered with
    | succ covered => exact ih rest member
    | zero =>
      simp only [occurrencesFrom] at member
      split at member
      next fits =>
        rcases List.mem_cons.mp member with rfl | later
        · rw [left]
          exact List.isPrefixOf_iff_prefix.mp fits
        · exact ih rest later
      next => exact ih rest member

namespace Capture
open Cell

/-- Bytes of which no comment, literal or block is made. -/
def IsFlat (b : Byte) : Prop := b ∉ delimiters ∧ b ≠ Byte.openBrace ∧ b ≠ Byte.closeBrace

instance (b : Byte) : Decidable (IsFlat b) := inferInstanceAs (Decidable (_ ∧ _))

/-- A substitution that leaves the lexemes and the blocks around it as they are. -/
structure Mild (s : Substitution) : Prop where
  old : ∀ b ∈ s.old, IsFlat b
  new : ∀ b ∈ s.new, IsFlat b
  begins : ∀ b ∈ s.old.head?, b ≠ Byte.newline
  oldEnds : ∀ b ∈ s.old.getLast?, Byte.isIdent b = false
  newEnds : ∃ b, s.new.getLast? = some b ∧ Byte.isIdent b = false

variable {body : List Cell} {tail : Bytes} {s : Substitution} {w : Splice}

theorem mem_splices (member : w ∈ splices body s) : w.text = s.new ∧ s.old ≠ [] ∧
    w.span.stop = w.span.start + s.old.length ∧ s.old <+: bytes (body.drop w.span.start) ∧
    ∃ c, body[w.span.start]? = some c ∧ c.isCode = true := by
  obtain ⟨at_, found, rfl⟩ := List.mem_map.mp member
  obtain ⟨occurs, code⟩ := List.mem_filter.mp found
  rw [Option.any_eq_true_iff_get] at code
  unfold Bytes.occurrences at occurs
  split at occurs
  · cases occurs
  next some_old =>
    have begins := Bytes.prefix_of_mem_occurrencesFrom (List.drop_zero) occurs
    rw [bytes, ← List.map_drop] at begins
    obtain ⟨some_cell, code⟩ := code
    exact ⟨rfl, some_old, rfl, begins, _, Option.eq_some_of_isSome some_cell, code⟩

theorem net_of_flat {cells : List Cell} (flat : ∀ c ∈ cells, IsFlat c.byte) : net cells = 0 :=
  net_eq_zero fun c member => weight_of_no_brace (flat c member).2.1 (flat c member).2.2

theorem bytes_slice (member : w ∈ splices body s) : bytes (w.span.slice body) = s.old := by
  obtain ⟨_, _, stop, begins, _⟩ := mem_splices member
  rw [Span.slice, Span.length, stop, Nat.add_sub_cancel_left, bytes, List.map_take]
  exact (List.prefix_iff_eq_take.mp begins).symm

theorem splices_fit (mild : Mild s) (read : Reads [] body tail) (member : w ∈ splices body s) :
    w.Fits body tail := by
  obtain ⟨text, some_old, stop, begins, c, here, code⟩ := mem_splices member
  have short := begins.length_le
  have positive := List.length_pos_iff.mpr some_old
  simp only [bytes, List.length_map, List.length_drop] at short
  have own := bytes_slice member
  have flat : ∀ d ∈ w.span.slice body, d.byte ∉ delimiters := by
    intro d inside
    apply (mild.old d.byte _).1
    rw [← own]
    exact List.mem_map_of_mem inside
  have is_code : ∀ d, body[w.span.start]? = some d → d.isCode = true :=
    fun d found => Option.some.inj (here.symm.trans found) ▸ code
  refine ⟨by omega, by omega, is_code, ?_, ?_, ?_, .inl ?_⟩
  · rw [text]
    exact fun b inside => (mild.new b inside).1
  · intro d positive before
    refine ⟨read.noLine_before here code ?_ d positive before, fun none => ?_⟩
    · apply mild.begins
      obtain ⟨rest, whole⟩ := begins
      have first := congrArg List.head? whole
      rwa [List.head?_append_of_ne_nil _ some_old, bytes, List.head?_map, List.head?_drop, here] at first
    · obtain ⟨b, last, _⟩ := mild.newEnds
      rw [text] at none
      rw [none] at last
      cases last
  · have start := read.from_code is_code
    rw [← Span.slice_append_drop (by omega : w.span.start ≤ w.span.stop) body] at start
    have plain_code := start.code_of_plain flat
    have behind := (start.split_behind fun d last => plain_code d (List.mem_of_getLast? last)).2
    have same := congrArg List.getLast? own
    rw [bytes, List.getLast?_map] at same
    obtain ⟨b, last⟩ : ∃ b, s.old.getLast? = some b := ⟨_, List.getLast?_eq_some_getLast some_old⟩
    rw [last, Option.map_eq_some_iff] at same
    obtain ⟨d, last', rfl⟩ := same
    rwa [runOver_of_last last' (by rw [mild.oldEnds _ last, Bool.and_false])] at behind
  · rw [text]
    exact mild.newEnds

/-- No substitution reaches the brace at the end of a body. -/
theorem splice_before_end (mild : Mild s) (read : Reads [] body tail) {c : Cell}
    (last : body.getLast? = some c) (byte : c.byte = Byte.closeBrace) (member : w ∈ splices body s) :
    w.span.stop < body.length := by
  obtain ⟨_, some_old, stop, _⟩ := mem_splices member
  have := List.length_pos_iff.mpr some_old
  have inside := (splices_fit mild read member).inside
  by_contra large
  have ends : w.span.stop = body.length := by omega
  have own : (w.span.slice body).getLast? = some c := by
    rw [← last, @List.getLast?_eq_getElem? _ body, ← ends]
    exact Span.getLast?_slice body (by omega : w.span.start < w.span.stop) inside
  have flat : IsFlat c.byte := by
    apply mild.old
    rw [← bytes_slice member]
    exact List.mem_map_of_mem (List.mem_of_getLast? own)
  exact flat.2.2 byte

theorem net_splice (mild : Mild s) (member : w ∈ splices body s) : net w.cells = net (w.span.slice body) := by
  rw [net_of_flat, net_of_flat]
  · intro d among
    apply mild.old
    rw [← bytes_slice member]
    exact List.mem_map_of_mem among
  · intro d among
    rw [Splice.cells_eq, (mem_splices member).1] at among
    obtain ⟨b, known, rfl⟩ := List.mem_map.mp among
    exact mild.new b known

def replaced (body : List Cell) (substitutions : List Substitution) : List Cell :=
  Splice.applyFrom body 0 ((substitutions.flatMap (splices body)).mergeSort
    fun a b => a.span.start ≤ b.span.start)

/-- A body with mild substitutions made is a body still. -/
theorem piece_replace {substitutions : List Substitution} (mild : ∀ s ∈ substitutions, Mild s)
    (standalone : Standalone body) {c : Cell} (last : body.getLast? = some c)
    (closes : c.isCodeByte Byte.closeBrace = true) :
    Piece (replace body substitutions) (net body) (tokens (replaced body substitutions)) := by
  have among (w : Splice) (member : w ∈ (substitutions.flatMap (splices body)).mergeSort
      fun a b => a.span.start ≤ b.span.start) : ∃ s, Mild s ∧ w ∈ splices body s := by
    obtain ⟨s, known, inside⟩ := List.mem_flatMap.mp (List.mem_mergeSort.mp member)
    exact ⟨s, mild s known, inside⟩
  have byte : c.byte = Byte.closeBrace := by
    simp only [isCodeByte, Bool.and_eq_true, beq_iff_eq] at closes
    exact closes.1
  have positive : 0 < body.length := by
    cases body with
    | nil => cases last
    | cons d body => simp
  refine ⟨_, rfl, ⟨fun tail => ?_, ?_⟩, ?_, rfl⟩
  · apply Splice.reads_applyFrom _ (standalone.reads tail) (.inl rfl)
    intro w member
    obtain ⟨s, mild, inside⟩ := among w member
    exact splices_fit mild (standalone.reads tail) inside
  · apply runOver_of_last (c := c)
    · rw [Splice.getLast?_applyFrom _ positive, last]
      intro w member
      obtain ⟨s, mild, inside⟩ := among w member
      exact splice_before_end mild (standalone.reads []) last byte inside
    · rw [byte]
      exact Bool.and_false _
  · apply Splice.net_applyFrom
    intro w member
    obtain ⟨s, mild, inside⟩ := among w member
    obtain ⟨_, _, stop, _⟩ := mem_splices inside
    exact ⟨by omega, net_splice mild inside⟩

end Capture

open Cell

/-- No part of the text is both its beginning and its end, but for the empty part and the whole. -/
def Bytes.Borderless (text : Bytes) : Prop :=
  ∀ part ∈ text.inits, part <:+ text → part = [] ∨ part = text

instance (text : Bytes) : Decidable text.Borderless :=
  inferInstanceAs (Decidable (∀ part ∈ text.inits, part <:+ text → part = [] ∨ part = text))

theorem Bytes.borderless_iff {text : Bytes} :
    text.Borderless ↔ ∀ part, part <+: text → part <:+ text → part = [] ∨ part = text := by
  simp [Borderless, List.mem_inits]

/-- A text without border occurs nowhere inside an occurrence of it but at its start. -/
theorem Bytes.Borderless.apart {text all : Bytes} {i j : Nat} (borderless : text.Borderless)
    (first : text <+: all.drop i) (second : text <+: all.drop j) (lt : i < j) :
    i + text.length ≤ j := by
  by_contra overlap
  -- What the two occurrences share ends the first one and begins the second one.
  have shared : text.drop (j - i) <+: text := by
    have rest := first.drop (j - i)
    rw [List.drop_drop, Nat.add_sub_cancel' (Nat.le_of_lt lt)] at rest
    refine List.prefix_of_prefix_length_le rest second ?_
    rw [List.length_drop]
    omega
  rcases borderless_iff.mp borderless _ shared (List.drop_suffix _ _) with none | whole
  · rw [List.drop_eq_nil_iff] at none
    omega
  · have size := congrArg List.length whole
    rw [List.length_drop] at size
    omega

theorem Bytes.lt_of_prefix_drop {text all : Bytes} {k : Nat} (some_text : text ≠ [])
    (occurs : text <+: all.drop k) : k < all.length := by
  have short := occurs.length_le
  have := List.length_pos_iff.mpr some_text
  rw [List.length_drop] at short
  omega

theorem Bytes.le_of_mem_occurrencesFrom {needle text : Bytes} {covered at_ k : Nat}
    (member : k ∈ occurrencesFrom needle covered at_ text) : at_ + covered ≤ k := by
  induction text generalizing covered at_ with
  | nil => cases covered <;> cases member
  | cons b text ih =>
    cases covered with
    | succ covered =>
      have := ih member
      omega
    | zero =>
      simp only [occurrencesFrom] at member
      split at member
      · rcases List.mem_cons.mp member with rfl | later
        · omega
        · have := ih later
          omega
      · have := ih member
        omega

theorem Bytes.nodup_occurrencesFrom (needle : Bytes) (covered at_ : Nat) (text : Bytes) :
    (occurrencesFrom needle covered at_ text).Nodup := by
  induction text generalizing covered at_ with
  | nil => cases covered <;> exact .nil
  | cons b text ih =>
    cases covered with
    | succ covered => exact ih covered (at_ + 1)
    | zero =>
      simp only [occurrencesFrom]
      split
      · refine List.nodup_cons.mpr ⟨fun again => ?_, ih _ _⟩
        have := le_of_mem_occurrencesFrom again
        omega
      · exact ih 0 (at_ + 1)

/-- A text without border is found wherever it occurs, since no occurrence of it hides another one. -/
theorem Bytes.Borderless.mem_occurrencesFrom {needle all text : Bytes} {covered at_ k : Nat}
    (borderless : needle.Borderless) (some_needle : needle ≠ []) (left : all.drop at_ = text)
    (occurs : needle <+: all.drop k) (behind : at_ + covered ≤ k) :
    k ∈ occurrencesFrom needle covered at_ text := by
  have positive := List.length_pos_iff.mpr some_needle
  induction text generalizing covered at_ with
  | nil =>
    have inside := lt_of_prefix_drop some_needle occurs
    rw [List.drop_eq_nil_iff] at left
    omega
  | cons b text ih =>
    have rest : all.drop (at_ + 1) = text := by
      rw [← List.drop_drop, left]
      rfl
    cases covered with
    | succ covered => exact ih rest (by omega)
    | zero =>
      simp only [occurrencesFrom]
      by_cases here : k = at_
      · subst here
        rw [if_pos (List.isPrefixOf_iff_prefix.mpr (left ▸ occurs))]
        exact .head _
      · split
        next fits =>
          have first : needle <+: all.drop at_ := left ▸ List.isPrefixOf_iff_prefix.mp fits
          have := borderless.apart first occurs (by omega)
          exact .tail _ (ih rest (by omega))
        next => exact ih rest (by omega)

def Substitution.Heads (r : Substitution) (cells : List Cell) : Prop :=
  r.old ≠ [] ∧ r.old <+: bytes cells ∧ ∀ c ∈ cells.head?, c.isCode = true

instance (r : Substitution) (cells : List Cell) : Decidable (r.Heads cells) :=
  inferInstanceAs (Decidable (r.old ≠ [] ∧ r.old <+: bytes cells ∧ ∀ c ∈ cells.head?, c.isCode = true))

def Substitution.splice (r : Substitution) (at_ : Nat) : Splice := ⟨⟨at_, at_ + r.old.length⟩, r.new⟩

namespace Splice

variable {at_ : Nat} {ws : List Splice}

theorem counted_append_of_lt (covered : ∀ w ∈ ws, w.span.start < at_) (more : List Splice) :
    counted at_ (ws ++ more) = counted at_ more := by
  induction ws with
  | nil => rfl
  | cons w ws ih =>
    rw [List.cons_append, counted, if_pos (covered w (.head _)),
      ih fun v member => covered v (.tail _ member)]

theorem subset_of_counted (at_ : Nat) (ws : List Splice) : counted at_ ws ⊆ ws := by
  induction ws generalizing at_ with
  | nil => exact List.Subset.refl _
  | cons w ws ih =>
    rw [counted]
    split
    · exact List.subset_cons_of_subset w (ih at_)
    · exact List.cons_subset_cons w (ih w.span.stop)

/-- Splices that count do not overlap. -/
theorem counted_apart (order : ∀ w ∈ ws, w.span.start ≤ w.span.stop) (at_ : Nat) :
    (∀ w ∈ counted at_ ws, at_ ≤ w.span.start) ∧
      (counted at_ ws).Pairwise fun a b => a.span.stop ≤ b.span.start := by
  induction ws generalizing at_ with
  | nil => simp [counted]
  | cons w ws ih =>
    have later := ih fun v member => order v (.tail _ member)
    rw [counted]
    split
    · exact later at_
    next before =>
      rw [Nat.not_lt] at before
      obtain ⟨behind, apart⟩ := later w.span.stop
      refine ⟨List.forall_mem_cons.mpr ⟨before, fun v member => ?_⟩, List.pairwise_cons.mpr ⟨behind, apart⟩⟩
      have := behind v member
      have := order w (.head _)
      omega

end Splice

namespace Capture

/-- Some occurrences in `body` of what the rules look for, each of which begins in code. They stand in
the order of the text, and none overlaps another one. -/
structure Chosen (body : List Cell) (rules : List Substitution) (picks : List Splice) : Prop where
  apart : picks.Pairwise fun a b => a.span.stop ≤ b.span.start
  each : ∀ w ∈ picks, ∃ r ∈ rules, r.Heads (body.drop w.span.start) ∧ w = r.splice w.span.start

/-- The substitutions that one pass from the left makes in cells at `at_`, of which the first `covered`
belong to an occurrence already taken. Where several rules find their text the first rule counts. -/
def leftmostFrom (rules : List Substitution) : (covered at_ : Nat) → List Cell → List Splice
  | _, _, [] => []
  | covered + 1, at_, _ :: cells => leftmostFrom rules covered (at_ + 1) cells
  | 0, at_, c :: cells =>
    match rules.find? (·.Heads (c :: cells)) with
    | some r => r.splice at_ :: leftmostFrom rules (r.old.length - 1) (at_ + 1) cells
    | none => leftmostFrom rules 0 (at_ + 1) cells

def leftmost (rules : List Substitution) (body : List Cell) : List Splice := leftmostFrom rules 0 0 body

variable {body cells : List Cell} {rules : List Substitution} {r : Substitution} {covered at_ k : Nat}

theorem heads_of_mem_splices {w : Splice} (member : w ∈ splices body r) :
    r.Heads (body.drop w.span.start) ∧ w = r.splice w.span.start := by
  obtain ⟨text, some_old, stop, begins, c, here, code⟩ := mem_splices member
  refine ⟨⟨some_old, begins, fun d head => ?_⟩, ?_⟩
  · rw [List.head?_drop, Option.mem_def, here] at head
    exact Option.some.inj head ▸ code
  · obtain ⟨⟨start, _⟩, _⟩ := w
    simp only at stop text
    rw [Substitution.splice, stop, text]

theorem mem_splices_of_heads (borderless : r.old.Borderless) (heads : r.Heads (body.drop k)) :
    r.splice k ∈ splices body r := by
  obtain ⟨some_old, begins, code⟩ := heads
  rw [bytes, List.map_drop, ← bytes] at begins
  have inside := Bytes.lt_of_prefix_drop some_old begins
  rw [bytes, List.length_map] at inside
  refine List.mem_map_of_mem (List.mem_filter.mpr ⟨?_, ?_⟩)
  · rw [Bytes.occurrences, if_neg some_old]
    exact borderless.mem_occurrencesFrom some_old List.drop_zero begins (Nat.zero_le k)
  · rw [List.getElem?_eq_getElem inside]
    apply code
    rw [List.head?_drop, List.getElem?_eq_getElem inside, Option.mem_def]

theorem filter_splices (borderless : r.old.Borderless) (k : Nat) :
    (splices body r).filter (·.span.start == k) = if r.Heads (body.drop k) then [r.splice k] else [] := by
  split
  next heads =>
    have member := mem_splices_of_heads borderless heads
    unfold splices at member ⊢
    obtain ⟨_, offset, same⟩ := List.mem_map.mp member
    obtain rfl := congrArg (·.span.start) same
    have distinct : (Bytes.occurrences r.old (bytes body)).Nodup := by
      rw [Bytes.occurrences, if_neg heads.1]
      exact Bytes.nodup_occurrencesFrom _ _ _ _
    rw [List.filter_map]
    simp only [Function.comp_def]
    rw [List.filter_beq, List.count_eq_one_of_mem (distinct.filter _) offset]
    rfl
  next none =>
    rw [List.filter_eq_nil_iff]
    rintro w member here
    obtain rfl := beq_iff_eq.mp here
    exact none (heads_of_mem_splices member).1

/-- What the rules ask for at an offset, in the order of the rules. -/
def wantedAt (body : List Cell) (rules : List Substitution) (k : Nat) : List Splice :=
  (rules.flatMap (splices body)).filter (·.span.start == k)

theorem wantedAt_eq (borderless : ∀ r ∈ rules, r.old.Borderless) (k : Nat) :
    wantedAt body rules k = (rules.filter (·.Heads (body.drop k))).map (·.splice k) := by
  induction rules with
  | nil => rfl
  | cons r rules ih =>
    rw [wantedAt, List.flatMap_cons, List.filter_append, filter_splices (borderless r (.head _)),
      ← wantedAt, ih fun r member => borderless r (.tail _ member), List.filter_cons]
    split <;> simp_all

/-- Of what the rules ask for, place by place, the choice of one pass from the left counts. -/
theorem counted_wantedAt (borderless : ∀ r ∈ rules, r.old.Borderless) (left : body.drop at_ = cells)
    (behind : Nat) :
    Splice.counted behind ((List.range' at_ cells.length).flatMap (wantedAt body rules)) =
      leftmostFrom rules (behind - at_) at_ cells := by
  induction cells generalizing behind at_ with
  | nil => cases behind - at_ <;> rfl
  | cons c cells ih =>
    have rest : body.drop (at_ + 1) = cells := by
      rw [← List.drop_drop, left]
      rfl
    rw [List.length_cons, List.range'_succ, List.flatMap_cons, wantedAt_eq borderless, left]
    by_cases covered : at_ < behind
    · have more : behind - at_ = behind - (at_ + 1) + 1 := by omega
      rw [more, leftmostFrom, Splice.counted_append_of_lt, ih rest]
      intro w member
      obtain ⟨r, _, rfl⟩ := List.mem_map.mp member
      exact covered
    · rw [Nat.sub_eq_zero_of_le (Nat.le_of_not_lt covered), leftmostFrom, ← List.head?_filter]
      cases found : rules.filter (·.Heads (c :: cells)) with
      | nil =>
        have none : behind - (at_ + 1) = 0 := by omega
        exact (ih rest behind).trans (by rw [none]; rfl)
      | cons r others =>
        have place : (r.splice at_).span = ⟨at_, at_ + r.old.length⟩ := rfl
        have more : at_ + r.old.length - (at_ + 1) = r.old.length - 1 := by omega
        have own : r ∈ rules.filter (·.Heads (c :: cells)) := found ▸ .head _
        have positive := List.length_pos_iff.mpr (of_decide_eq_true (List.mem_filter.mp own).2).1
        rw [List.map_cons, List.cons_append, Splice.counted, place, if_neg covered,
          Splice.counted_append_of_lt, ih rest, more, List.head?_cons]
        intro w member
        obtain ⟨_, _, rfl⟩ := List.mem_map.mp member
        simp only [Substitution.splice]
        omega

theorem made_eq_leftmost (borderless : ∀ r ∈ rules, r.old.Borderless) :
    Splice.counted 0 ((rules.flatMap (splices body)).mergeSort
      fun a b => a.span.start ≤ b.span.start) = leftmost rules body := by
  have bound : ∀ w ∈ rules.flatMap (splices body), w.span.start < body.length := by
    intro w member
    obtain ⟨r, _, among⟩ := List.mem_flatMap.mp member
    obtain ⟨_, _, _, _, c, here, _⟩ := mem_splices among
    exact (List.getElem?_eq_some_iff.mp here).1
  rw [Sorting.mergeSort_eq_flatMap (fun w : Splice => w.span.start) bound, List.range_eq_range']
  exact counted_wantedAt borderless List.drop_zero 0

/-- One pass from the left takes or covers every place at which a rule finds its text in code. -/
theorem covers_leftmostFrom (among : r ∈ rules) (left : body.drop at_ = cells)
    (heads : r.Heads (body.drop k)) (behind : at_ + covered ≤ k) :
    ∃ w ∈ leftmostFrom rules covered at_ cells, w.span.start ≤ k ∧ k < w.span.stop := by
  induction cells generalizing covered at_ with
  | nil =>
    have none : body.drop k = [] := by
      rw [List.drop_eq_nil_iff] at left ⊢
      omega
    obtain ⟨some_old, begins, _⟩ := heads
    rw [none] at begins
    exact absurd (List.prefix_nil.mp begins) some_old
  | cons c cells ih =>
    have rest : body.drop (at_ + 1) = cells := by
      rw [← List.drop_drop, left]
      rfl
    cases covered with
    | succ covered => exact ih rest (by omega)
    | zero =>
      rw [leftmostFrom]
      cases found : rules.find? (·.Heads (c :: cells)) with
      | none =>
        have other : k ≠ at_ := by
          rintro rfl
          have := List.find?_eq_none.mp found r among
          exact this (decide_eq_true (left ▸ heads))
        exact ih rest (by omega)
      | some first =>
        by_cases inside : k < at_ + first.old.length
        · exact ⟨_, .head _, by simp only [Substitution.splice]; omega, inside⟩
        · have finds := List.find?_some found
          have positive := List.length_pos_iff.mpr (of_decide_eq_true finds).1
          obtain ⟨w, member, covers⟩ := @ih (first.old.length - 1) _ rest (by omega)
          exact ⟨w, .tail _ member, covers⟩

theorem chosen_made : Chosen body rules (Splice.counted 0
    ((rules.flatMap (splices body)).mergeSort fun a b => a.span.start ≤ b.span.start)) := by
  have each (w : Splice) (member : w ∈ (rules.flatMap (splices body)).mergeSort
      fun a b => a.span.start ≤ b.span.start) :
      ∃ r ∈ rules, r.Heads (body.drop w.span.start) ∧ w = r.splice w.span.start := by
    obtain ⟨r, among, inside⟩ := List.mem_flatMap.mp (List.mem_mergeSort.mp member)
    exact ⟨r, among, heads_of_mem_splices inside⟩
  constructor
  · refine (Splice.counted_apart (fun w member => ?_) 0).2
    obtain ⟨r, _, _, same⟩ := each w member
    rw [same]
    exact Nat.le_add_right _ _
  · exact fun w member => each w (Splice.subset_of_counted 0 _ member)

/-- Substitutions in a part of a scanned text replace disjoint occurrences that begin in code, and leave
every other byte as it is. If no text that is looked for can overlap itself, these are the occurrences
that one pass from the left takes, the first rule first, and every occurrence in code is one of them or
begins inside one. -/
theorem replace_eq_fill_leftmost (s : Scan) (span : Span) (rules : List Substitution) :
    let body := span.slice s.cells
    ∃ picks, Chosen body rules picks ∧
      replace body rules = Assembly.fill (bytes body) 0 body.length picks ∧
      ((∀ r ∈ rules, r.old.Borderless) → picks = leftmost rules body ∧
        ∀ r ∈ rules, ∀ k, r.Heads (body.drop k) → ∃ w ∈ picks, w.span.start ≤ k ∧ k < w.span.stop) := by
  intro body
  refine ⟨_, chosen_made, Splice.bytes_applyFrom body 0 _, fun borderless => ?_⟩
  rw [made_eq_leftmost borderless]
  exact ⟨rfl, fun r among k heads => covers_leftmostFrom among List.drop_zero heads (Nat.zero_le _)⟩

/-- Of two rules for one place the first one is made, and a rule for a part of it where that stands
alone. -/
theorem replace_eq_fill_leftmost_lambda :
    let source := utf8 "\x7b f([this] \x7b this->g(); \x7d); /* [this] */ \x7d"
    let rules : List Substitution :=
      [⟨utf8 "[this]", utf8 "[&]"⟩, ⟨utf8 "[this", utf8 "["⟩, ⟨utf8 "this", utf8 "self"⟩]
    ∃ s, Scan.of source = .ok s ∧ (∀ r ∈ rules, r.old.Borderless) ∧
      let body := (Span.mk 0 source.length).slice s.cells
      replace body rules = utf8 "\x7b f([&] \x7b self->g(); \x7d); /* [this] */ \x7d" ∧
      Chosen body rules [⟨⟨4, 10⟩, utf8 "[&]"⟩, ⟨⟨13, 17⟩, utf8 "self"⟩] ∧
      ∀ r ∈ rules, ∀ k, r.Heads (body.drop k) → 4 ≤ k ∧ k < 10 ∨ 13 ≤ k ∧ k < 17 := by
  intro source rules
  have computed : (Scan.of source).map (fun s =>
      let body := (Span.mk 0 source.length).slice s.cells
      (leftmost rules body, Assembly.fill (bytes body) 0 body.length (leftmost rules body))) =
        .ok ([⟨⟨4, 10⟩, utf8 "[&]"⟩, ⟨⟨13, 17⟩, utf8 "self"⟩],
          utf8 "\x7b f([&] \x7b self->g(); \x7d); /* [this] */ \x7d") := by decide +kernel
  have borderless : ∀ r ∈ rules, r.old.Borderless := by decide +kernel
  obtain ⟨s, scanned, outcome⟩ := Except.of_map_eq_ok computed
  obtain ⟨chosen, filled⟩ := Prod.mk.inj outcome
  obtain ⟨picks, are_chosen, text, greedy⟩ := replace_eq_fill_leftmost s ⟨0, source.length⟩ rules
  obtain ⟨rfl, covers⟩ := greedy borderless
  refine ⟨s, scanned, borderless, text.trans filled, chosen ▸ are_chosen, fun r among k heads => ?_⟩
  obtain ⟨w, member, inside⟩ := covers r among k heads
  rw [chosen] at member
  simp only [List.mem_cons, List.not_mem_nil, or_false] at member
  rcases member with rfl | rfl
  · exact .inl inside
  · exact .inr inside

end Capture

end OutOfLine
