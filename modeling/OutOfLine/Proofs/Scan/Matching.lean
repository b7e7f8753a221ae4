import Mathlib.Algebra.BigOperators.Group.List.Basic
import Mathlib.Algebra.Ring.Int.Defs
import OutOfLine.Scan

/-! The brace depth of a scan as a sum over its cells. A located block is a brace and the first
one after it that takes the depth back, so that the depth is greater all the way between them. -/

namespace OutOfLine

/-- How much a cell changes the depth. -/
def Cell.weight (c : Cell) : Int := ((BraceKind.of? c).map BraceKind.step).getD 0

def Cell.net (cells : List Cell) : Int := (cells.map Cell.weight).sum

def BraceKind.sum (kinds : List BraceKind) : Int := (kinds.map BraceKind.step).sum

namespace BraceKind

@[simp] theorem sum_nil : sum [] = 0 := rfl

@[simp] theorem sum_cons (kind : BraceKind) (kinds : List BraceKind) :
    sum (kind :: kinds) = kind.step + sum kinds := by simp [sum]

@[simp] theorem sum_append (first second : List BraceKind) :
    sum (first ++ second) = sum first + sum second := by simp [sum]

end BraceKind

namespace Cell

@[simp] theorem net_nil : net [] = 0 := rfl

@[simp] theorem net_cons (c : Cell) (cells : List Cell) : net (c :: cells) = c.weight + net cells := by
  simp [net]

@[simp] theorem net_append (first second : List Cell) :
    net (first ++ second) = net first + net second := by simp [net]

theorem weight_of_not_code {c : Cell} (away : c.isCode = false) : c.weight = 0 := by
  simp [weight, BraceKind.of?, isCodeByte, away]

theorem weight_of_no_brace {c : Cell} (noOpening : c.byte ≠ Byte.openBrace)
    (noClosing : c.byte ≠ Byte.closeBrace) : c.weight = 0 := by
  simp [weight, BraceKind.of?, isCodeByte, noOpening, noClosing]

theorem net_eq_zero {cells : List Cell} (each : ∀ c ∈ cells, c.weight = 0) : net cells = 0 := by
  induction cells with
  | nil => rfl
  | cons c cells ih =>
    rw [net_cons, each c (.head _), ih fun d member => each d (.tail _ member), Int.add_zero]

theorem weight_closing {c : Cell} (closing : c.isCodeByte Byte.closeBrace = true) :
    c.weight = -1 := by
  have : c.isCodeByte Byte.openBrace = false := by
    simp only [isCodeByte, Bool.and_eq_true, beq_iff_eq] at closing
    rw [isCodeByte, closing.1]
    rfl
  simp [weight, BraceKind.of?, closing, this, BraceKind.step]

end Cell

namespace Brace

theorem sum_marksFrom (offset : Nat) (cells : List Cell) :
    BraceKind.sum ((marksFrom offset cells).map Prod.snd) = Cell.net cells := by
  induction cells generalizing offset with
  | nil => rfl
  | cons c cells ih =>
    cases kind : BraceKind.of? c with
    | none => simp [marksFrom, kind, ih, Cell.weight]
    | some k => simp [marksFrom, kind, ih, Cell.weight]

theorem offset_of_mem_marksFrom {offset : Nat} {cells : List Cell} {m : Nat × BraceKind}
    (member : m ∈ marksFrom offset cells) : offset ≤ m.1 ∧ m.1 < offset + cells.length := by
  induction cells generalizing offset with
  | nil => cases member
  | cons c cells ih =>
    cases kind : BraceKind.of? c with
    | none =>
      have := ih (by simpa [marksFrom, kind] using member)
      simp only [List.length_cons]
      omega
    | some k =>
      simp only [marksFrom, kind, List.mem_cons] at member
      rcases member with rfl | member
      · simp
      · have := ih member
        simp only [List.length_cons]
        omega

theorem cell_of_mem_marksFrom {offset : Nat} {cells : List Cell} {m : Nat × BraceKind}
    (member : m ∈ marksFrom offset cells) :
    ∃ c, cells[m.1 - offset]? = some c ∧ BraceKind.of? c = some m.2 := by
  induction cells generalizing offset with
  | nil => cases member
  | cons c cells ih =>
    have later (inside : m ∈ marksFrom (offset + 1) cells) :
        ∃ d, (c :: cells)[m.1 - offset]? = some d ∧ BraceKind.of? d = some m.2 := by
      obtain ⟨d, found, kind⟩ := ih inside
      have bounds := offset_of_mem_marksFrom inside
      have shift : m.1 - offset = m.1 - (offset + 1) + 1 := by omega
      exact ⟨d, by rw [shift, List.getElem?_cons_succ, found], kind⟩
    cases kind : BraceKind.of? c with
    | none => exact later (by simpa [marksFrom, kind] using member)
    | some k =>
      simp only [marksFrom, kind, List.mem_cons] at member
      rcases member with rfl | member
      · exact ⟨c, by simp, kind⟩
      · exact later member

theorem mem_marksFrom_of_cell {offset i : Nat} {cells : List Cell} {c : Cell} {kind : BraceKind}
    (found : cells[i]? = some c) (brace : BraceKind.of? c = some kind) :
    (offset + i, kind) ∈ marksFrom offset cells := by
  induction cells generalizing offset i with
  | nil => cases found
  | cons d cells ih =>
    cases i with
    | zero =>
      obtain rfl : d = c := by simpa using found
      simp [marksFrom, brace]
    | succ i =>
      have later := @ih (offset + 1) i (by simpa using found)
      rw [Nat.add_assoc, Nat.add_comm 1 i] at later
      cases first : BraceKind.of? d <;> simp [marksFrom, first, later]

theorem marksFrom_sorted (offset : Nat) (cells : List Cell) :
    (marksFrom offset cells).Pairwise (·.1 < ·.1) := by
  induction cells generalizing offset with
  | nil => exact .nil
  | cons c cells ih =>
    cases kind : BraceKind.of? c with
    | none => simpa [marksFrom, kind] using ih (offset + 1)
    | some k =>
      simp only [marksFrom, kind, List.pairwise_cons]
      refine ⟨fun m member => ?_, ih (offset + 1)⟩
      have := offset_of_mem_marksFrom member
      omega

theorem lt_length_takeWhile {marks : List (Nat × BraceKind)} (sorted : marks.Pairwise (·.1 < ·.1))
    (found : marks[i]? = some m) (offset : Nat) :
    i < (marks.takeWhile (·.1 < offset)).length ↔ m.1 < offset := by
  induction marks generalizing i with
  | nil => cases found
  | cons first marks ih =>
    obtain ⟨least, sorted⟩ := List.pairwise_cons.mp sorted
    by_cases small : first.1 < offset
    · cases i with
      | zero =>
        obtain rfl : first = m := by simpa using found
        simp [small]
      | succ i => simpa [small] using ih sorted (by simpa using found)
    · have : ¬m.1 < offset := by
        cases i with
        | zero =>
          obtain rfl : first = m := by simpa using found
          exact small
        | succ i =>
          have := least m (List.mem_of_getElem? (by simpa using found))
          omega
      simp [small, this]

theorem takeWhile_marksFrom (offset count : Nat) (cells : List Cell) :
    (marksFrom offset cells).takeWhile (·.1 < offset + count) = marksFrom offset (cells.take count) := by
  induction cells generalizing offset count with
  | nil => simp [marksFrom]
  | cons c cells ih =>
    cases count with
    | zero =>
      rw [List.take_zero, marksFrom, Nat.add_zero]
      cases marked : marksFrom offset (c :: cells) with
      | nil => rfl
      | cons m marks =>
        have := offset_of_mem_marksFrom (marked ▸ List.mem_cons_self)
        rw [List.takeWhile_cons_of_neg (by simp only [decide_eq_true_eq]; omega)]
    | succ count =>
      have rest := ih (offset + 1) count
      rw [Nat.add_right_comm, Nat.add_assoc] at rest
      cases kind : BraceKind.of? c <;> simp [marksFrom, kind, rest]

theorem length_assemble (partners : Array (Option Nat)) (at_ : Nat) (depth : Int)
    (marks : List (Nat × BraceKind)) : (assemble partners at_ depth marks).length = marks.length := by
  induction marks generalizing at_ depth with
  | nil => rfl
  | cons m marks ih => simp [assemble, ih]

/-- The brace at a position: its mark, the depth after it, and its partner. -/
theorem getElem?_assemble (partners : Array (Option Nat)) (at_ : Nat) (depth : Int)
    (marks : List (Nat × BraceKind)) (i : Nat) :
    (assemble partners at_ depth marks)[i]? = marks[i]?.map fun m =>
      ⟨m.2, m.1, depth + BraceKind.sum ((marks.take (i + 1)).map Prod.snd),
        partners[at_ + i]?.join⟩ := by
  induction marks generalizing at_ depth i with
  | nil => rfl
  | cons m marks ih =>
    cases i with
    | zero => simp [assemble]
    | succ i =>
      simp only [assemble, List.getElem?_cons_succ, ih, List.take_succ_cons, List.map_cons,
        BraceKind.sum_cons]
      have shift : at_ + 1 + i = at_ + (i + 1) := by omega
      rw [shift]
      simp only [Int.add_assoc]

theorem takeWhile_assemble (partners : Array (Option Nat)) (at_ : Nat) (depth : Int)
    (marks : List (Nat × BraceKind)) (offset : Nat) :
    (assemble partners at_ depth marks).takeWhile (·.offset < offset) =
      assemble partners at_ depth (marks.takeWhile (·.1 < offset)) := by
  induction marks generalizing at_ depth with
  | nil => rfl
  | cons m marks ih =>
    by_cases small : m.1 < offset
    · simp [assemble, small, ih]
    · simp [assemble, small]

theorem getLast?_assemble (partners : Array (Option Nat)) (at_ : Nat) (depth : Int)
    (marks : List (Nat × BraceKind)) :
    ((assemble partners at_ depth marks).getLast?.map Brace.depth).getD depth =
      depth + BraceKind.sum (marks.map Prod.snd) := by
  rw [List.getLast?_eq_getElem?, length_assemble, getElem?_assemble]
  cases marks with
  | nil => simp
  | cons m marks => simp [List.take_of_length_le]

end Brace

namespace Scan

theorem length_bytes (s : Scan) : s.bytes.length = s.length := by
  simp [bytes, Cell.bytes, length]

def marks (s : Scan) : List (Nat × BraceKind) := Brace.marksFrom 0 s.cells

def kinds (s : Scan) : List BraceKind := s.marks.map Prod.snd

theorem getElem?_braces (s : Scan) (i : Nat) :
    s.braces[i]? = s.marks[i]?.map fun m =>
      ⟨m.2, m.1, BraceKind.sum (s.kinds.take (i + 1)), (BraceKind.partners s.kinds)[i]?.join⟩ := by
  rw [s.braces_eq, Brace.all, Brace.getElem?_assemble]
  simp [marks, kinds, List.map_take]

/-- The depth at an offset is what the cells in front of it add up to. -/
theorem depthAt_eq (s : Scan) (offset : Nat) : s.depthAt offset = Cell.net (s.cells.take offset) := by
  have front := Brace.takeWhile_marksFrom 0 offset s.cells
  rw [Nat.zero_add] at front
  simp only [depthAt, s.braces_eq, Brace.all, Brace.takeWhile_assemble, front]
  rw [Brace.getLast?_assemble, Brace.sum_marksFrom, Int.zero_add]

theorem depthAt_length {s : Scan} {first second : List Cell} (whole : s.cells = first ++ second) :
    s.depthAt first.length = Cell.net first := by
  rw [depthAt_eq, whole, List.take_left]

theorem depthAt_end (s : Scan) : s.depthAt s.length = Cell.net s.cells := by
  rw [depthAt_eq, length, List.take_length]

/-- A part of a text changes the depth by what its braces add up to. -/
theorem net_slice (s : Scan) {start stop : Nat} (order : start ≤ stop) :
    Cell.net ((Span.mk start stop).slice s.cells) = s.depthAt stop - s.depthAt start := by
  have whole : s.cells.take stop = s.cells.take start ++ (Span.mk start stop).slice s.cells := by
    rw [Span.slice, Span.length, ← List.take_add, Nat.add_sub_cancel' order]
  rw [depthAt_eq, depthAt_eq, whole, Cell.net_append]
  omega

def marksBefore (s : Scan) (offset : Nat) : Nat := (s.marks.takeWhile (·.1 < offset)).length

theorem depthAt_eq_sum (s : Scan) (offset : Nat) :
    s.depthAt offset = BraceKind.sum (s.kinds.take (s.marksBefore offset)) := by
  have front := Brace.takeWhile_marksFrom 0 offset s.cells
  rw [Nat.zero_add] at front
  have taken := List.prefix_iff_eq_take.mp (List.takeWhile_prefix (p := (·.1 < offset)) (l := s.marks))
  rw [depthAt_eq, ← Brace.sum_marksFrom 0, ← front, kinds, ← List.map_take, marksBefore, ← taken, marks]

theorem marks_lt {s : Scan} {i j : Nat} {m n : Nat × BraceKind} (first : s.marks[i]? = some m)
    (second : s.marks[j]? = some n) (lt : i < j) : m.1 < n.1 := by
  obtain ⟨small, rfl⟩ := List.getElem?_eq_some_iff.mp first
  obtain ⟨large, rfl⟩ := List.getElem?_eq_some_iff.mp second
  exact List.pairwise_iff_getElem.mp (Brace.marksFrom_sorted 0 s.cells) i j small large lt

theorem lt_marksBefore {s : Scan} (found : s.marks[i]? = some m) (offset : Nat) :
    i < s.marksBefore offset ↔ m.1 < offset :=
  Brace.lt_length_takeWhile (Brace.marksFrom_sorted 0 s.cells) found offset

end Scan

namespace BraceKind

theorem step_opening : step .opening = 1 := rfl

theorem step_closing : step .closing = -1 := rfl

/-- The braces at two positions match: the depth stays above what it is before the first of them until
the second one takes it back. -/
structure Matched (kinds : List BraceKind) (i j : Nat) : Prop where
  opening : kinds[i]? = some .opening
  closing : kinds[j]? = some .closing
  lt : i < j
  above : ∀ k, i < k → k ≤ j → sum (kinds.take i) < sum (kinds.take k)
  back : sum (kinds.take (j + 1)) = sum (kinds.take i)

/-- The positions of the open braces after `seen`, innermost first, when `depth` is the depth inside
the first of them. -/
def Unclosed (seen : List BraceKind) (depth : Int) : List Nat → Prop
  | [] => True
  | i :: unclosed =>
    seen[i]? = some .opening ∧ sum (seen.take i) + 1 = depth ∧
      (∀ k, i < k → k ≤ seen.length → sum (seen.take i) < sum (seen.take k)) ∧
      Unclosed seen (sum (seen.take i)) unclosed

theorem take_append_singleton {seen : List BraceKind} {k : Nat} (small : k ≤ seen.length)
    (kind : BraceKind) : (seen ++ [kind]).take k = seen.take k := by
  rw [List.take_append_of_le_length small]

theorem lt_of_getElem? {seen : List BraceKind} (found : seen[i]? = some kind) : i < seen.length :=
  (List.getElem?_eq_some_iff.mp found).1

/-- Braces stay open as long as the depth stays above what it is before each of them. -/
theorem Unclosed.append {seen : List BraceKind} {depth : Int} {unclosed : List Nat}
    (valid : Unclosed seen depth unclosed) (kind : BraceKind)
    (above : depth ≤ sum (seen ++ [kind])) : Unclosed (seen ++ [kind]) depth unclosed := by
  induction unclosed generalizing depth with
  | nil => trivial
  | cons i unclosed ih =>
    obtain ⟨opening, inside, higher, outer⟩ := valid
    have bound := lt_of_getElem? opening
    have front := take_append_singleton (Nat.le_of_lt bound) kind
    refine ⟨?_, ?_, ?_, ?_⟩
    · rw [List.getElem?_append_left bound, opening]
    · rw [front, inside]
    · intro k after upto
      rw [front]
      rw [List.length_append, List.length_singleton] at upto
      by_cases last : k = seen.length + 1
      · have all : (seen ++ [kind]).take k = seen ++ [kind] :=
          List.take_of_length_le (by simp [last])
        rw [all]
        omega
      · have small : k ≤ seen.length := by omega
        rw [take_append_singleton small]
        exact higher k after small
    · rw [front]
      exact ih outer (by omega)

theorem Unclosed.push {seen : List BraceKind} {unclosed : List Nat}
    (valid : Unclosed seen (sum seen) unclosed) :
    Unclosed (seen ++ [.opening]) (sum (seen ++ [.opening])) (seen.length :: unclosed) := by
  have front := take_append_singleton (Nat.le_refl seen.length) BraceKind.opening
  refine ⟨by simp, ?_, ?_, ?_⟩
  · rw [front]; simp [step_opening]
  · intro k after upto
    have length : (seen ++ [BraceKind.opening]).length = seen.length + 1 := by simp
    obtain rfl : k = seen.length + 1 := by rw [length] at upto; omega
    have all : (seen ++ [BraceKind.opening]).take (seen.length + 1) = seen ++ [.opening] :=
      List.take_of_length_le (Nat.le_of_eq length)
    rw [front, all, List.take_length, sum_append]
    simp only [sum_cons, sum_nil, step_opening]
    omega
  · rw [front, List.take_length]
    exact valid.append _ (by simp only [sum_append, sum_cons, sum_nil, step_opening]; omega)

theorem Unclosed.pop {seen : List BraceKind} {o : Nat} {unclosed : List Nat}
    (valid : Unclosed seen (sum seen) (o :: unclosed)) :
    sum (seen ++ [.closing]) = sum (seen.take o) ∧
      Unclosed (seen ++ [.closing]) (sum (seen ++ [.closing])) unclosed := by
  obtain ⟨_, inside, _, outer⟩ := valid
  have after : sum (seen ++ [.closing]) = sum (seen.take o) := by
    rw [sum_append]
    simp only [sum_cons, sum_nil, step_closing]
    omega
  refine ⟨after, ?_⟩
  rw [after]
  exact outer.append _ (Int.le_of_eq after.symm)

theorem pairsFrom_matched {seen kinds : List BraceKind} {unclosed : List Nat}
    (valid : Unclosed seen (sum seen) unclosed) (member : (i, j) ∈ pairsFrom unclosed seen.length kinds) :
    Matched (seen ++ kinds) i j := by
  induction kinds generalizing seen unclosed with
  | nil => cases member
  | cons kind kinds ih =>
    have whole : seen ++ kind :: kinds = (seen ++ [kind]) ++ kinds := by simp
    have length : (seen ++ [kind]).length = seen.length + 1 := by simp
    cases kind with
    | opening =>
      rw [whole]
      apply ih valid.push
      rw [length]
      exact member
    | closing =>
      cases unclosed with
      | nil =>
        rw [whole]
        apply @ih _ [] trivial
        rw [length]
        exact member
      | cons o unclosed =>
        obtain ⟨after, popped⟩ := valid.pop
        rw [pairsFrom, List.mem_cons] at member
        rcases member with same | member
        · obtain ⟨rfl, rfl⟩ := Prod.mk.inj same
          obtain ⟨opening, _, higher, _⟩ := valid
          have bound := lt_of_getElem? opening
          have front : (seen ++ .closing :: kinds).take i = seen.take i :=
            List.take_append_of_le_length (Nat.le_of_lt bound)
          refine ⟨?_, by simp, bound, ?_, ?_⟩
          · rw [List.getElem?_append_left bound, opening]
          · intro k above upto
            rw [front, List.take_append_of_le_length upto]
            exact higher k above upto
          · rw [front, whole, ← length, List.take_left, after]
        · rw [whole]
          apply ih popped
          rw [length]
          exact member

theorem pairs_matched {kinds : List BraceKind} (member : (i, j) ∈ pairs kinds) : Matched kinds i j :=
  @pairsFrom_matched i j [] kinds [] trivial member

theorem partners_mem {kinds : List BraceKind} (found : (partners kinds)[i]? = some (some j)) :
    (i, j) ∈ pairs kinds ∨ (j, i) ∈ pairs kinds := by
  have step (some_pairs : List (Nat × Nat)) (start : Array (Option Nat))
      (known : ∀ i j, start[i]? = some (some j) → (i, j) ∈ pairs kinds ∨ (j, i) ∈ pairs kinds)
      (among : ∀ pair ∈ some_pairs, pair ∈ pairs kinds) :
      ∀ i j, (some_pairs.foldl (fun found pair =>
        (found.setIfInBounds pair.1 (some pair.2)).setIfInBounds pair.2 (some pair.1)) start)[i]? =
          some (some j) → (i, j) ∈ pairs kinds ∨ (j, i) ∈ pairs kinds := by
    induction some_pairs generalizing start with
    | nil => exact known
    | cons pair some_pairs ih =>
      rw [List.foldl_cons]
      apply ih _ _ (fun p inside => among p (.tail _ inside))
      intro i j set
      have here := among pair (.head _)
      rw [Array.getElem?_setIfInBounds, Array.getElem?_setIfInBounds] at set
      split at set
      · next same =>
        subst same
        split at set
        · obtain rfl : pair.1 = j := by simpa using set
          exact .inr here
        · cases set
      · split at set
        · next same =>
          subst same
          split at set
          · obtain rfl : pair.2 = j := by simpa using set
            exact .inl here
          · cases set
        · exact known i j set
  apply step (pairs kinds) _ _ (fun _ inside => inside) i j found
  intro i j empty
  rw [Array.getElem?_replicate] at empty
  split at empty <;> cases empty

theorem partner_matched {kinds : List BraceKind} (opening : kinds[i]? = some .opening)
    (found : (partners kinds)[i]? = some (some j)) : Matched kinds i j := by
  rcases partners_mem found with pair | pair
  · exact pairs_matched pair
  · have closing := (pairs_matched pair).closing
    rw [opening] at closing
    cases closing

end BraceKind

/-- A block of a scan: two braces in code position, and nothing between them takes the depth back. -/
structure Block.Located (s : Scan) (b : Block) : Prop where
  opening : ∃ c, s.cells[b.opening]? = some c ∧ c.isCodeByte Byte.openBrace = true
  closing : ∃ c, s.cells[b.closing]? = some c ∧ c.isCodeByte Byte.closeBrace = true
  lt : b.opening < b.closing
  depth : s.depthAt b.opening = b.depth
  inside : ∀ offset, b.opening < offset → offset ≤ b.closing → b.depth < s.depthAt offset
  back : s.depthAt (b.closing + 1) = b.depth

theorem Scan.depthAt_succ {c : Cell} (s : Scan) (found : s.cells[offset]? = some c) :
    s.depthAt (offset + 1) = s.depthAt offset + c.weight := by
  rw [depthAt_eq, depthAt_eq, List.take_add_one, found]
  simp

namespace Block.Located

variable {s : Scan} {b d : Block}

theorem closing_lt_length (valid : b.Located s) : b.closing < s.length := by
  obtain ⟨c, found, _⟩ := valid.closing
  exact (List.getElem?_eq_some_iff.mp found).1

theorem inner (valid : d.Located s) : s.depthAt d.closing = d.innerDepth := by
  obtain ⟨c, found, closes⟩ := valid.closing
  have := s.depthAt_succ found
  rw [valid.back, Cell.weight_closing closes] at this
  rw [Block.innerDepth]
  omega

theorem begin (valid : d.Located s) : s.depthAt d.body.start = d.innerDepth := by
  obtain ⟨c, found, opens⟩ := valid.opening
  have weight : c.weight = 1 := by simp [Cell.weight, BraceKind.of?, opens, BraceKind.step]
  exact (s.depthAt_succ found).trans (by rw [valid.depth, weight, Block.innerDepth])

/-- A block that opens in the body of another one closes before any later place that is directly
inside the other one. -/
theorem closing_lt (outer : d.Located s) (valid : b.Located s) (inside : d.opening < b.opening)
    (before : b.opening < stop) (upto : stop ≤ d.closing) (level : s.depthAt stop = d.innerDepth) :
    b.closing < stop := by
  by_contra large
  have deep := valid.inside stop before (by omega)
  have around := outer.inside b.opening inside (by omega)
  rw [valid.depth] at around
  rw [Block.innerDepth] at level
  omega

end Block.Located

namespace Scan

variable {s : Scan} {i j : Nat} {m : Nat × BraceKind}

theorem marks_kind (found : s.marks[i]? = some m) : s.kinds[i]? = some m.2 := by
  simp [kinds, found]

theorem mark_cell (found : s.marks[i]? = some m) :
    ∃ c, s.cells[m.1]? = some c ∧ BraceKind.of? c = some m.2 := by
  simpa using Brace.cell_of_mem_marksFrom (List.mem_of_getElem? found)

theorem marksBefore_mark (found : s.marks[i]? = some m) : s.marksBefore m.1 = i := by
  have upto : ¬i < s.marksBefore m.1 := by
    rw [lt_marksBefore found]
    omega
  have bound := (List.getElem?_eq_some_iff.mp found).1
  by_contra other
  have small : s.marksBefore m.1 < s.marks.length := by omega
  have present := List.getElem?_eq_getElem small
  have before := (lt_marksBefore present m.1).mpr (marks_lt present found (by omega))
  omega

theorem depthAt_mark (found : s.marks[i]? = some m) :
    s.depthAt m.1 = BraceKind.sum (s.kinds.take i) := by
  rw [depthAt_eq_sum, marksBefore_mark found]

theorem of?_opening {c : Cell} (kind : BraceKind.of? c = some .opening) :
    c.isCodeByte Byte.openBrace = true := by
  unfold BraceKind.of? at kind
  split at kind
  · assumption
  · split at kind <;> cases kind

theorem of?_closing {c : Cell} (kind : BraceKind.of? c = some .closing) :
    c.isCodeByte Byte.closeBrace = true := by
  unfold BraceKind.of? at kind
  split at kind
  · cases kind
  · split at kind
    · assumption
    · cases kind

theorem located_of_matched (matched : BraceKind.Matched s.kinds i j)
    (first : s.marks[i]? = some (o, .opening)) (second : s.marks[j]? = some (c, .closing)) :
    Block.Located s ⟨o, c, BraceKind.sum (s.kinds.take i)⟩ := by
  obtain ⟨opening, here, opens⟩ := mark_cell first
  obtain ⟨closing, there, closes⟩ := mark_cell second
  have before := depthAt_mark first
  have after := depthAt_mark second
  have last : BraceKind.sum (s.kinds.take (j + 1)) = BraceKind.sum (s.kinds.take j) - 1 := by
    rw [List.take_add_one, marks_kind second]
    simp [BraceKind.step_closing]
    omega
  refine ⟨⟨opening, here, of?_opening opens⟩, ⟨closing, there, of?_closing closes⟩, ?_, before, ?_, ?_⟩
  · exact marks_lt first second matched.lt
  · intro offset after upto
    rw [depthAt_eq_sum]
    apply matched.above
    · exact (lt_marksBefore first offset).mpr after
    · have := (lt_marksBefore second offset).mp
      dsimp only at upto this
      omega
  · have back := matched.back
    dsimp only at after ⊢
    rw [depthAt_succ s there, after, Cell.weight_closing (of?_closing closes)]
    omega

theorem mark_of_cell {c : Cell} {kind : BraceKind} (found : s.cells[offset]? = some c)
    (brace : BraceKind.of? c = some kind) : ∃ k : Nat, s.marks[k]? = some (offset, kind) := by
  have member := @Brace.mem_marksFrom_of_cell 0 offset s.cells c kind found brace
  rw [Nat.zero_add] at member
  exact List.getElem?_of_mem member

theorem of?_of_opening {c : Cell} (opening : c.isCodeByte Byte.openBrace = true) :
    BraceKind.of? c = some .opening := by simp [BraceKind.of?, opening]

/-- What is found from an anchor is a block of the scan, the first one that opens there or later. -/
theorem located_of_locateBlock (found : s.locateBlock anchor = .ok b) :
    b.Located s ∧ anchor ≤ b.opening ∧ ∀ offset, anchor ≤ offset → offset < b.opening →
      ∀ c, s.cells[offset]? = some c → c.isCodeByte Byte.openBrace = false := by
  unfold locateBlock firstOpenFrom? at found
  split at found
  · cases found
  next opened first =>
  obtain ⟨i, least, present⟩ := Option.bind_eq_some_iff.mp first
  split at found
  · cases found
  next closed second =>
  obtain ⟨j, partner, there⟩ := Option.bind_eq_some_iff.mp second
  cases found
  rw [getElem?_braces, Option.map_eq_some_iff] at present there
  obtain ⟨⟨o, kind⟩, here, rfl⟩ := present
  obtain ⟨⟨c, kind'⟩, ended, rfl⟩ := there
  dsimp only at partner
  obtain ⟨bound, fits, smallest⟩ := List.findIdx?_eq_some_iff_getElem.mp least
  have brace := getElem?_braces s i
  rw [List.getElem?_eq_getElem bound, here, Option.map_some, Option.some.injEq] at brace
  simp only [brace, Bool.and_eq_true, decide_eq_true_eq, beq_iff_eq] at fits
  obtain ⟨after, rfl⟩ := fits
  have matched := BraceKind.partner_matched (marks_kind here) (Option.join_eq_some_iff.mp partner)
  obtain rfl : kind' = .closing := by
    simpa [marks_kind ended] using matched.closing
  have depth : BraceKind.sum (s.kinds.take (i + 1)) - 1 = BraceKind.sum (s.kinds.take i) := by
    rw [List.take_add_one, marks_kind here]
    simp [BraceKind.step_opening]
  dsimp only
  rw [depth]
  refine ⟨located_of_matched matched here ended, after, ?_⟩
  intro offset late early cell at_offset
  by_contra opening
  obtain ⟨k, mark⟩ := mark_of_cell at_offset (of?_of_opening (by simpa using opening))
  have lt : k < i := by
    by_contra large
    rcases Nat.lt_or_eq_of_le (Nat.le_of_not_lt large) with lt | rfl
    · have := marks_lt here mark lt
      dsimp only at this
      omega
    · rw [here] at mark
      cases mark
      omega
  have no := smallest k lt
  have earlier := getElem?_braces s k
  rw [List.getElem?_eq_getElem (Nat.lt_trans lt bound), mark, Option.map_some,
    Option.some.injEq] at earlier
  simp [earlier, late] at no

theorem opening_of_locateBlock {c : Cell} (found : s.locateBlock anchor = .ok b)
    (here : s.cells[anchor]? = some c) (opening : c.isCodeByte Byte.openBrace = true) :
    b.opening = anchor := by
  obtain ⟨_, after, first⟩ := located_of_locateBlock found
  by_contra other
  have := first anchor (Nat.le_refl anchor) (by omega) c here
  rw [opening] at this
  cases this

end Scan

end OutOfLine
