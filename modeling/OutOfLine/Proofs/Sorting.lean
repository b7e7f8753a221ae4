import Mathlib.Data.List.Basic
import Mathlib.Data.List.Pairwise
import Mathlib.Data.List.Sort
import OutOfLine.Text.Search

/-! Computations that may fail, taken apart, and sorted lists. -/

namespace OutOfLine

theorem Except.of_map_eq_ok {f : α → β} {x : Except ε α} (h : x.map f = .ok b) :
    ∃ a, x = .ok a ∧ f a = b := by
  cases x with
  | error e => cases h
  | ok a => exact ⟨a, rfl, Except.ok.inj h⟩

theorem Except.map_eq_error_iff {f : α → β} {x : Except ε α} : x.map f = .error e ↔ x = .error e := by
  cases x <;> simp [Except.map]

theorem Except.of_bind_eq_ok {f : α → Except ε β} {x : Except ε α} (h : (x >>= f) = .ok b) :
    ∃ a, x = .ok a ∧ f a = .ok b := by
  cases x with
  | error e => cases h
  | ok a => exact ⟨a, rfl, h⟩

theorem Except.of_bind_eq_error {f : α → Except ε β} {x : Except ε α} (h : (x >>= f) = .error e) :
    x = .error e ∨ ∃ a, x = .ok a ∧ f a = .error e := by
  cases x with
  | error e' => exact .inl (congrArg Except.error (Except.error.inj h))
  | ok a => exact .inr ⟨a, rfl, h⟩

namespace Sorting

/-- Sorting is stable: some of the items come in the order in which they would come alone. -/
theorem filter_mergeSort {le : α → α → Bool} (transitive : ∀ a b c, le a b → le b c → le a c)
    (total : ∀ a b, le a b || le b a) (p : α → Bool) (items : List α) :
    (items.mergeSort le).filter p = (items.filter p).mergeSort le := by
  have place {before behind : List α} {a : α} (smaller : ∀ b ∈ before, !le a b)
      (larger : ∀ b ∈ behind, le a b) : (before ++ behind).takeWhile (!le a ·) = before := by
    rw [List.takeWhile_append_of_pos smaller]
    cases behind with
    | nil => simp
    | cons b behind => simp [larger b (.head _)]
  have larger {before behind items : List α} {a : α}
      (whole : (a :: items).mergeSort le = before ++ a :: behind) : ∀ b ∈ behind, le a b := by
    have sorted := List.pairwise_mergeSort transitive total (a :: items)
    rw [whole] at sorted
    exact (List.pairwise_cons.mp (List.pairwise_append.mp sorted).2.1).1
  induction items with
  | nil => simp
  | cons a items ih =>
    obtain ⟨before, behind, whole, rest, smaller⟩ := List.mergeSort_cons transitive total a items
    rw [rest, List.filter_append] at ih
    rw [whole, List.filter_append]
    by_cases kept : p a
    · obtain ⟨before', behind', whole', rest', smaller'⟩ :=
        List.mergeSort_cons transitive total a (items.filter p)
      have parts := ih.trans rest'
      have same : before.filter p = before' := by
        rw [← place smaller' (larger whole'), ← parts]
        exact (place (fun b member => smaller b (List.mem_filter.mp member).1)
          fun b member => larger whole b (List.mem_filter.mp member).1).symm
      rw [same] at parts
      rw [List.filter_cons_of_pos kept, List.filter_cons_of_pos kept, whole', same,
        List.append_cancel_left parts]
    · rw [List.filter_cons_of_neg kept, List.filter_cons_of_neg kept, ih]

theorem le_trans_key (key : α → Nat) (a b c : α) (first : decide (key a ≤ key b) = true)
    (second : decide (key b ≤ key c) = true) : decide (key a ≤ key c) = true := by
  rw [decide_eq_true_eq] at *
  exact Nat.le_trans first second

theorem le_total_key (key : α → Nat) (a b : α) :
    (decide (key a ≤ key b) || decide (key b ≤ key a)) = true := by
  simpa using Nat.le_total (key a) (key b)

theorem pairwise_mergeSort (key : α → Nat) (items : List α) :
    (items.mergeSort fun a b => key a ≤ key b).Pairwise (fun a b => key a ≤ key b) :=
  (List.pairwise_mergeSort (le_trans_key key) (le_total_key key) items).imp of_decide_eq_true

/-- Items with different numbers have one sorted order, which sorting finds. -/
theorem mergeSort_eq (key : α → Nat) {items sorted : List α} (perm : items.Perm sorted)
    (ordered : sorted.Pairwise (fun a b => key a < key b)) :
    (items.mergeSort fun a b => key a ≤ key b) = sorted := by
  apply List.Perm.eq_of_pairwise _ (pairwise_mergeSort key items) (ordered.imp Nat.le_of_lt)
    ((List.mergeSort_perm _ _).trans perm)
  intro a b first second le ge
  have member : a ∈ sorted := perm.mem_iff.mp (List.mem_mergeSort.mp first)
  have same : key a = key b := Nat.le_antisymm le ge
  obtain ⟨i, hi, rfl⟩ := List.mem_iff_getElem.mp member
  obtain ⟨j, hj, rfl⟩ := List.mem_iff_getElem.mp second
  rcases Nat.lt_trichotomy i j with lt | rfl | gt
  · have := List.pairwise_iff_getElem.mp ordered i j hi hj lt
    omega
  · rfl
  · have := List.pairwise_iff_getElem.mp ordered j i hj hi gt
    omega

instance irrefl_key (key : α → Nat) : Std.Irrefl fun a b => key a < key b :=
  ⟨fun a => Nat.lt_irrefl (key a)⟩

instance antisymm_key (key : α → Nat) : Std.Antisymm fun a b => key a < key b :=
  ⟨fun _ _ less more => absurd less (Nat.lt_asymm more)⟩

theorem filter_append_filter (p : α → Bool) {items : List α}
    (ordered : items.Pairwise fun a b => p b = true → p a = true) :
    items.filter p ++ items.filter (!p ·) = items := by
  induction items with
  | nil => rfl
  | cons a items ih =>
    obtain ⟨first, ordered⟩ := List.pairwise_cons.mp ordered
    cases own : p a with
    | true =>
      rw [List.filter_cons_of_pos own, List.filter_cons_of_neg (by simp [own]), List.cons_append,
        ih ordered]
    | false =>
      have none : ∀ b ∈ items, p b = false := by
        intro b member
        by_contra kept
        rw [first b member (by simpa using kept)] at own
        cases own
      rw [List.filter_eq_nil_iff.mpr (by simpa [own] using none), List.nil_append, List.filter_eq_self]
      simpa [own] using none

/-- Sorting by a number puts the items with each number next to one another, in the order they had. -/
theorem mergeSort_eq_flatMap (key : α → Nat) {items : List α} {n : Nat} (bound : ∀ a ∈ items, key a < n) :
    (items.mergeSort fun a b => key a ≤ key b) =
      (List.range n).flatMap fun k => items.filter (key · == k) := by
  induction n generalizing items with
  | zero =>
    obtain rfl := List.eq_nil_iff_forall_not_mem.mpr fun a member => Nat.not_lt_zero _ (bound a member)
    simp
  | succ n ih =>
    have stable (p : α → Bool) : (items.mergeSort fun a b => key a ≤ key b).filter p =
        (items.filter p).mergeSort fun a b => key a ≤ key b :=
      filter_mergeSort (le_trans_key key) (le_total_key key) p items
    have parts := filter_append_filter (fun a => decide (key a < n)) <|
      (pairwise_mergeSort key items).imp fun {a b} le => by
        simp only [decide_eq_true_eq]
        omega
    have smaller : ∀ k ∈ List.range n, (items.filter fun a => decide (key a < n)).filter (key · == k) =
        items.filter (key · == k) := by
      intro k inside
      have := List.mem_range.mp inside
      rw [List.filter_filter]
      apply List.filter_congr
      intro a _
      simp only [Bool.and_eq_left_iff_imp, beq_iff_eq, decide_eq_true_eq]
      omega
    have last : (items.filter fun a => !decide (key a < n)) = items.filter (key · == n) := by
      apply List.filter_congr
      intro a member
      have := bound a member
      rw [Bool.eq_iff_iff]
      simp only [Bool.not_eq_true', decide_eq_false_iff_not, beq_iff_eq]
      omega
    have same : ((items.filter (key · == n)).mergeSort fun a b => key a ≤ key b) =
        items.filter (key · == n) := by
      apply List.mergeSort_of_pairwise
      refine List.pairwise_of_forall_mem_list fun a first b second => ?_
      have one := (List.mem_filter.mp first).2
      have two := (List.mem_filter.mp second).2
      simp only [beq_iff_eq] at one two
      simp [one, two]
    rw [← parts, stable, stable, ih fun a member => by simpa using (List.mem_filter.mp member).2,
      List.flatMap_congr smaller, last, same, List.range_succ, List.flatMap_append,
      List.flatMap_singleton]

end Sorting

end OutOfLine
