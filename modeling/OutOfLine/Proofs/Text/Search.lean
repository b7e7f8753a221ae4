import Mathlib.Data.List.Induction
import Mathlib.Order.Bounds.Defs
import Mathlib.Order.MinMax
import OutOfLine.Text.Search

/-! Matches stand in order without overlap; a location counts the newlines in front of an offset
and the bytes behind the last of them; and the distance that is computed row by row is the least
number of edits. -/

namespace OutOfLine

namespace Recogniser

def previous (before : Option Byte) (text : Bytes) (at_ : Nat) : Option Byte :=
  if at_ = 0 then before else text[at_ - 1]?

theorem previous_cons (before : Option Byte) (b : Byte) (rest : Bytes) (at_ : Nat) :
    previous before (b :: rest) (at_ + 1) = previous (some b) rest at_ := by
  cases at_ with
  | zero => rfl
  | succ at_ => simp [previous]

theorem mem_matchesFrom {r : Recogniser α} {covered at_ : Nat} {before : Option Byte} {text : Bytes}
    (member : m ∈ r.matchesFrom covered at_ before text) :
    ∃ k n, covered ≤ k ∧ k < text.length ∧
      r (previous before text k) (text.drop k) = some (n, m.2) ∧ m.1 = ⟨at_ + k, at_ + k + n⟩ := by
  induction text generalizing covered at_ before with
  | nil => cases covered <;> cases member
  | cons b rest ih =>
    have later {covered : Nat} (inside : m ∈ r.matchesFrom covered (at_ + 1) (some b) rest) :
        ∃ k n, covered + 1 ≤ k ∧ k < (b :: rest).length ∧
          r (previous before (b :: rest) k) ((b :: rest).drop k) = some (n, m.2) ∧
          m.1 = ⟨at_ + k, at_ + k + n⟩ := by
      obtain ⟨k, n, low, high, taken, span⟩ := ih inside
      refine ⟨k + 1, n, by omega, by simpa using high, by rw [previous_cons]; simpa using taken, ?_⟩
      rw [span, Nat.add_assoc, Nat.add_comm 1 k]
    cases covered with
    | succ covered => exact later member
    | zero =>
      cases found : r before (b :: rest) with
      | none =>
        obtain ⟨k, n, _, rest⟩ := later (by simpa [matchesFrom, found] using member)
        exact ⟨k, n, Nat.zero_le k, rest⟩
      | some taken =>
        simp only [matchesFrom, found, List.mem_cons] at member
        rcases member with rfl | member
        · exact ⟨0, taken.1, Nat.le_refl 0, by simp, found, rfl⟩
        · obtain ⟨k, n, _, rest⟩ := later member
          exact ⟨k, n, Nat.zero_le k, rest⟩

theorem taken_of_mem_matches {r : Recogniser α} {text : Bytes} (member : m ∈ r.matches text) :
    ∃ n, m.1.start < text.length ∧
      r (previous none text m.1.start) (text.drop m.1.start) = some (n, m.2) ∧
      m.1.stop = m.1.start + n := by
  obtain ⟨k, n, _, small, taken, span⟩ := mem_matchesFrom member
  simp only [Nat.zero_add] at span
  exact ⟨n, by rw [span]; exact small, by rw [span]; exact taken, by rw [span]⟩

theorem mem_matches {r : Recogniser α} {text : Bytes} (member : m ∈ r.matches text) :
    ∃ n before, m.1.start < text.length ∧ r before (text.drop m.1.start) = some (n, m.2) ∧
      m.1.stop = m.1.start + n := by
  obtain ⟨n, taken⟩ := taken_of_mem_matches member
  exact ⟨n, _, taken⟩

/-- What the recogniser takes begins a match, or lies in one that begins before. -/
theorem covered_of_taken {r : Recogniser α} {covered at_ k : Nat} {before : Option Byte} {text : Bytes}
    (behind : covered ≤ k) (inside : k < text.length)
    (taken : (r (previous before text k) (text.drop k)).isSome = true) :
    ∃ m ∈ r.matchesFrom covered at_ before text,
      m.1.start = at_ + k ∨ m.1.start < at_ + k ∧ at_ + k < m.1.stop := by
  induction text generalizing covered at_ k before with
  | nil => cases inside
  | cons b rest ih =>
    have later {covered : Nat} (behind : covered + 1 ≤ k) :
        ∃ m ∈ r.matchesFrom covered (at_ + 1) (some b) rest,
          m.1.start = at_ + k ∨ m.1.start < at_ + k ∧ at_ + k < m.1.stop := by
      obtain ⟨k, rfl⟩ : ∃ i, k = i + 1 := ⟨k - 1, by omega⟩
      rw [previous_cons, List.drop_succ_cons] at taken
      have shift : at_ + 1 + k = at_ + (k + 1) := by omega
      exact shift ▸ ih (Nat.le_of_succ_le_succ behind) (Nat.lt_of_succ_lt_succ inside) taken
    cases covered with
    | succ covered => exact later behind
    | zero =>
      rw [matchesFrom]
      cases found : r before (b :: rest) with
      | none =>
        cases k with
        | zero => rw [previous, if_pos rfl, List.drop_zero, found] at taken; cases taken
        | succ k => exact later (Nat.succ_le_succ (Nat.zero_le k))
      | some pair =>
        obtain ⟨n, a⟩ := pair
        by_cases own : k = 0 ∨ k < n
        · refine ⟨_, .head _, ?_⟩
          dsimp only
          omega
        · have ahead : n - 1 + 1 ≤ k := by omega
          obtain ⟨m, member, place⟩ := later ahead
          exact ⟨m, .tail _ member, place⟩

theorem matchesFrom_sorted {r : Recogniser α}
    (taking : ∀ before text n a, r before text = some (n, a) → 0 < n) (covered at_ : Nat)
    (before : Option Byte) (text : Bytes) :
    (r.matchesFrom covered at_ before text).Pairwise fun a b => a.1.stop ≤ b.1.start := by
  induction text generalizing covered at_ before with
  | nil => cases covered <;> exact .nil
  | cons b rest ih =>
    cases covered with
    | succ covered => exact ih covered (at_ + 1) (some b)
    | zero =>
      cases found : r before (b :: rest) with
      | none => simpa [matchesFrom, found] using ih 0 (at_ + 1) (some b)
      | some taken =>
        simp only [matchesFrom, found, List.pairwise_cons]
        refine ⟨fun m member => ?_, ih _ _ _⟩
        obtain ⟨k, n, low, _, _, span⟩ := mem_matchesFrom member
        have := taking _ _ _ _ found
        rw [span]
        dsimp only
        omega

theorem matches_sorted {r : Recogniser α}
    (taking : ∀ before text n a, r before text = some (n, a) → 0 < n) (text : Bytes) :
    (r.matches text).Pairwise fun a b => a.1.stop ≤ b.1.start :=
  matchesFrom_sorted taking 0 0 none text

end Recogniser

variable {text first second : Bytes}

namespace Location

/-- The place at the end of a text, by counting its newlines and the bytes behind the last of them. -/
def behind (text : Bytes) : Location :=
  ⟨text.count Byte.newline + 1, (text.reverse.takeWhile (· ≠ Byte.newline)).length + 1⟩

def Before (p q : Location) : Prop := p.line < q.line ∨ p.line = q.line ∧ p.column < q.column

theorem Before.ne {p q : Location} (before : p.Before q) : p ≠ q := by
  rintro rfl
  rcases before with line | ⟨_, column⟩
  · exact Nat.lt_irrefl _ line
  · exact Nat.lt_irrefl _ column

theorem behind_line_append (first second : Bytes) :
    (behind (first ++ second)).line = (behind first).line + second.count Byte.newline := by
  rw [behind, behind, List.count_append, Nat.add_right_comm]

theorem behind_column_append (first : Bytes) (same_line : Byte.newline ∉ second) :
    (behind (first ++ second)).column = (behind first).column + second.length := by
  have whole : ∀ b ∈ second.reverse, decide (b ≠ Byte.newline) = true := by
    intro b member
    rw [decide_eq_true_eq]
    rintro rfl
    exact same_line (List.mem_reverse.mp member)
  rw [behind, behind, List.reverse_append, List.takeWhile_append_of_pos whole, List.length_append,
    List.length_reverse]
  dsimp only
  omega

theorem behind_column_newline (text : Bytes) : (behind (text ++ [Byte.newline])).column = 1 := by
  simp [behind]

theorem before_append (first : Bytes) (some_byte : second ≠ []) :
    (behind first).Before (behind (first ++ second)) := by
  have lines := behind_line_append first second
  by_cases newline : Byte.newline ∈ second
  · have := List.count_pos_iff.mpr newline
    exact .inl (by omega)
  · have := behind_column_append first newline
    have := List.length_pos_iff.mpr some_byte
    rw [List.count_eq_zero_of_not_mem newline] at lines
    exact .inr ⟨by omega, by omega⟩

end Location

namespace LineTable

theorem startsAfterNewlines_append (at_ : Nat) (first second : Bytes) :
    startsAfterNewlines at_ (first ++ second) =
      startsAfterNewlines at_ first ++ startsAfterNewlines (at_ + first.length) second := by
  induction first generalizing at_ with
  | nil => rfl
  | cons b first ih =>
    rw [List.cons_append, startsAfterNewlines, startsAfterNewlines, ih, List.length_cons, Nat.add_assoc,
      Nat.add_comm 1]
    split <;> rfl

theorem mem_startsAfterNewlines {at_ start : Nat} (member : start ∈ startsAfterNewlines at_ text) :
    at_ < start ∧ start ≤ at_ + text.length := by
  induction text generalizing at_ with
  | nil => cases member
  | cons b text ih =>
    rw [List.length_cons]
    rw [startsAfterNewlines] at member
    split at member
    next =>
      rcases List.mem_cons.mp member with rfl | member
      · omega
      · have := ih member
        omega
    next =>
      have := ih member
      omega

/-- The lines that start up to an offset are those of the text in front of it. -/
theorem takeWhile_starts {offset : Nat} (inside : offset ≤ text.length) :
    (of text).starts.takeWhile (· ≤ offset) = (of (text.take offset)).starts := by
  have size : (text.take offset).length = offset := List.length_take_of_le inside
  have parts : (of text).starts =
      (of (text.take offset)).starts ++ startsAfterNewlines offset (text.drop offset) := by
    have := startsAfterNewlines_append 0 (text.take offset) (text.drop offset)
    rw [List.take_append_drop, Nat.zero_add, size] at this
    rw [of, of, this, List.cons_append]
  rw [parts, List.takeWhile_append_of_pos]
  · cases later : startsAfterNewlines offset (text.drop offset) with
    | nil => simp
    | cons start starts =>
      have := mem_startsAfterNewlines (later ▸ List.mem_cons_self)
      rw [List.takeWhile_cons_of_neg (by rw [decide_eq_true_eq]; omega), List.append_nil]
  · intro start member
    rw [decide_eq_true_eq]
    rcases List.mem_cons.mp member with rfl | member
    · exact Nat.zero_le _
    · have := mem_startsAfterNewlines member
      omega

theorem starts_behind (text : Bytes) : (of text).starts.length = (Location.behind text).line ∧
    (of text).starts.getLastD 0 + (Location.behind text).column = text.length + 1 := by
  induction text using List.reverseRecOn with
  | nil => exact ⟨rfl, rfl⟩
  | append_singleton text b ih =>
    obtain ⟨lines, last⟩ := ih
    have starts : (of (text ++ [b])).starts =
        (of text).starts ++ if b = Byte.newline then [text.length + 1] else [] := by
      rw [of, startsAfterNewlines_append, Nat.zero_add]
      rfl
    rw [starts, List.length_append, lines, Location.behind_line_append, List.length_append]
    by_cases newline : b = Byte.newline
    · subst newline
      rw [Location.behind_column_newline]
      simp
    · rw [Location.behind_column_append text (by simpa using Ne.symm newline), if_neg newline, List.append_nil]
      refine ⟨by simp [newline], ?_⟩
      rw [List.length_singleton]
      omega

theorem locate_eq_behind (text : Bytes) (offset : Nat) :
    (of text).locate offset = .behind (text.take (min offset text.length)) := by
  have inside : min offset text.length ≤ text.length := Nat.min_le_right _ _
  obtain ⟨lines, last⟩ := starts_behind (text.take (min offset text.length))
  rw [List.length_take_of_le inside] at last
  change Location.mk ((of text).starts.takeWhile (· ≤ min offset text.length)).length
    (min offset text.length - ((of text).starts.takeWhile (· ≤ min offset text.length)).getLastD 0 + 1) = _
  rw [takeWhile_starts inside, lines]
  have column : 0 < (Location.behind (text.take (min offset text.length))).column := Nat.succ_pos _
  refine congrArg (Location.mk _) ?_
  change _ = (Location.behind (text.take (min offset text.length))).column
  omega

/-- The location of an offset is found by counting the newlines in front of it and the bytes behind the last
of them, and it grows with the offset up to the end of the text: no two offsets share one. -/
theorem locate_counts (text : Bytes) :
    (∀ offset, (of text).locate offset = .behind (text.take (min offset text.length))) ∧
    (∀ i j, i < j → j ≤ text.length → ((of text).locate i).Before ((of text).locate j)) ∧
    ∀ i j, i ≤ text.length → j ≤ text.length → (of text).locate i = (of text).locate j → i = j := by
  have grows (i j : Nat) (less : i < j) (inside : j ≤ text.length) :
      ((of text).locate i).Before ((of text).locate j) := by
    rw [locate_eq_behind, locate_eq_behind, Nat.min_eq_left inside, Nat.min_eq_left (by omega),
      ← List.take_append_drop i (text.take j), List.take_take, Nat.min_eq_left (Nat.le_of_lt less)]
    apply Location.before_append
    rw [← List.length_pos_iff, List.length_drop, List.length_take_of_le inside]
    omega
  refine ⟨locate_eq_behind text, grows, fun i j first second same => ?_⟩
  rcases Nat.lt_trichotomy i j with less | equal | greater
  · exact absurd same (grows i j less second).ne
  · exact equal
  · exact absurd same.symm (grows j i greater first).ne

theorem locate_counts_newline : (1 : Nat) < 2 ∧ 2 ≤ [(0x61 : Byte), Byte.newline].length ∧
    ((of [0x61, Byte.newline]).locate 1).Before ((of [0x61, Byte.newline]).locate 2) :=
  ⟨by decide, by decide, (locate_counts [0x61, Byte.newline]).2.1 1 2 (by decide) (by decide)⟩

/-- A newline is the last byte of its line; what lies past the end counts as the end. -/
example : (of [0x61, Byte.newline]).locate 1 = ⟨1, 2⟩ ∧ (of [0x61, Byte.newline]).locate 2 = ⟨2, 1⟩ ∧
    (of [0x61, Byte.newline]).locate 9 = ⟨2, 1⟩ := by decide

end LineTable

theorem lineAt_eq (text : Bytes) (offset : Nat) : lineAt text offset = (text.take offset).count Byte.newline + 1 := by
  rw [lineAt, LineTable.locate_eq_behind, ← List.take_eq_take_min]
  rfl

/-- A text in front of another one adds its newlines to the lines of this one. -/
theorem lineAt_append (first second : Bytes) (offset : Nat) :
    lineAt (first ++ second) (first.length + offset) = first.count Byte.newline + lineAt second offset := by
  rw [lineAt_eq, lineAt_eq, List.take_length_add_append, List.count_append, Nat.add_assoc]

namespace Distance

variable {α : Type}

inductive Edit : List α → List α → Prop
  | insert (front back : List α) (b : α) : Edit (front ++ back) (front ++ b :: back)
  | delete (front back : List α) (a : α) : Edit (front ++ a :: back) (front ++ back)
  | substitute (front back : List α) (a b : α) : Edit (front ++ a :: back) (front ++ b :: back)

namespace Edit

variable {first second : List α}

theorem symm (edit : Edit first second) : Edit second first := by
  cases edit with
  | insert front back b => exact .delete front back b
  | delete front back a => exact .insert front back a
  | substitute front back a b => exact .substitute front back b a

theorem cons (edit : Edit first second) (c : α) : Edit (c :: first) (c :: second) := by
  cases edit with
  | insert front back b => exact .insert (c :: front) back b
  | delete front back a => exact .delete (c :: front) back a
  | substitute front back a b => exact .substitute (c :: front) back a b

theorem reverse (edit : Edit first second) : Edit first.reverse second.reverse := by
  cases edit with
  | insert front back b =>
    simpa using Edit.insert back.reverse front.reverse b
  | delete front back a =>
    simpa using Edit.delete back.reverse front.reverse a
  | substitute front back a b =>
    simpa using Edit.substitute back.reverse front.reverse a b

end Edit

/-- So many edits, one after another, lead from one list to another. -/
inductive EditPath : Nat → List α → List α → Prop
  | done (items : List α) : EditPath 0 items items
  | next {n : Nat} {first second third : List α} :
      Edit first second → EditPath n second third → EditPath (n + 1) first third

variable {m n : Nat} {first second third : List α}

namespace EditPath

theorem trans (one : EditPath m first second) (two : EditPath n second third) : EditPath (m + n) first third := by
  induction one with
  | done => rwa [Nat.zero_add]
  | next edit _ ih =>
    rw [Nat.add_right_comm]
    exact .next edit (ih two)

theorem symm (path : EditPath n first second) : EditPath n second first := by
  induction path with
  | done items => exact .done items
  | next edit _ ih => exact ih.trans (.next edit.symm (.done _))

theorem cons (path : EditPath n first second) (c : α) : EditPath n (c :: first) (c :: second) := by
  induction path with
  | done items => exact .done (c :: items)
  | next edit _ ih => exact .next (edit.cons c) ih

theorem reverse (path : EditPath n first second) : EditPath n first.reverse second.reverse := by
  induction path with
  | done items => exact .done items.reverse
  | next edit _ ih => exact .next edit.reverse ih

theorem insert (path : EditPath n first second) (b : α) : EditPath (n + 1) first (b :: second) :=
  path.trans (.next (.insert [] second b) (.done _))

theorem min (one : EditPath m first second) (two : EditPath n first second) : EditPath (min m n) first second := by
  rcases min_choice m n with same | same
  · rwa [same]
  · rwa [same]

theorem insertAll (items : List α) : EditPath items.length [] items := by
  induction items with
  | nil => exact .done []
  | cons b items ih => exact ih.insert b

end EditPath

variable [DecidableEq α]

/-- The least number of edits from one list to another: what becomes of the first item decides. -/
def least : List α → List α → Nat
  | [], second => second.length
  | first, [] => first.length
  | a :: first, b :: second =>
    min (min (least first second + if a = b then 0 else 1) (least first (b :: second) + 1))
      (least (a :: first) second + 1)
termination_by first second => first.length + second.length

theorem least_nil_left (second : List α) : least [] second = second.length := by rw [least]

theorem least_nil_right (first : List α) : least first [] = first.length := by
  cases first <;> rw [least]
  simp

theorem least_cons_cons (a b : α) (first second : List α) : least (a :: first) (b :: second) =
    min (min (least first second + if a = b then 0 else 1) (least first (b :: second) + 1))
      (least (a :: first) second + 1) := by
  rw [least]

theorem editPath_least (first second : List α) : EditPath (least first second) first second := by
  fun_induction least first second with
  | case1 second => exact .insertAll second
  | case2 first => exact (EditPath.insertAll first).symm
  | case3 a first b second keep delete insert =>
    refine .min (.min ?_ (.next (.delete [] first a) delete)) (insert.insert b)
    split
    next same => exact same ▸ keep.cons a
    next => exact .next (.substitute [] first a b) (keep.cons b)

theorem least_cons_cons_le (a b : α) (first second : List α) :
    least (a :: first) (b :: second) ≤ least first second + 1 := by
  rw [least_cons_cons]
  split <;> omega

theorem least_cons_left_le (a : α) (first second : List α) :
    least (a :: first) second ≤ least first second + 1 := by
  cases second with
  | nil => simp [least_nil_right]
  | cons b second =>
    rw [least_cons_cons]
    omega

theorem least_cons_right_le (b : α) (first second : List α) :
    least first (b :: second) ≤ least first second + 1 := by
  cases first with
  | nil => simp [least_nil_left]
  | cons a first =>
    rw [least_cons_cons]
    omega

theorem least_le_cons_left (a : α) (first second : List α) :
    least first second ≤ least (a :: first) second + 1 := by
  induction second with
  | nil =>
    rw [least_nil_right, least_nil_right, List.length_cons]
    omega
  | cons b second ih =>
    have keep := least_cons_right_le b first second
    rw [least_cons_cons]
    split <;> omega

theorem least_substitute_le (a b : α) (first second : List α) :
    least (a :: first) second ≤ least (b :: first) second + 1 := by
  induction second with
  | nil => simp [least_nil_right]
  | cons c second ih =>
    have keep := least_cons_cons_le a c first second
    have delete := least_cons_left_le a first (c :: second)
    have insert := least_cons_right_le c (a :: first) second
    rw [least_cons_cons b]
    split <;> omega

/-- A common first item leaves two lists as close to each other as they are. -/
theorem least_cons_congr (near : ∀ third, least first third ≤ least second third + 1) (c : α) (third : List α) :
    least (c :: first) third ≤ least (c :: second) third + 1 := by
  induction third with
  | nil =>
    have := near []
    simp only [least_nil_right, List.length_cons] at this ⊢
    omega
  | cons b third ih =>
    have keep := near third
    have delete := near (b :: third)
    rw [least_cons_cons, least_cons_cons]
    split <;> omega

theorem least_append_congr (near : ∀ third, least first third ≤ least second third + 1) (front third : List α) :
    least (front ++ first) third ≤ least (front ++ second) third + 1 := by
  induction front generalizing third with
  | nil => exact near third
  | cons c front ih => exact least_cons_congr ih c third

/-- One edit changes the distance to any list by one at most: it is made behind a common front. -/
theorem least_le_of_edit (edit : Edit first second) (third : List α) :
    least first third ≤ least second third + 1 := by
  cases edit with
  | insert front back b => exact least_append_congr (least_le_cons_left b back) front third
  | delete front back a =>
    refine least_append_congr (fun third => ?_) front third
    exact least_cons_left_le a back third
  | substitute front back a b => exact least_append_congr (least_substitute_le a b back) front third

theorem least_self (items : List α) : least items items = 0 := by
  induction items with
  | nil => exact least_nil_left []
  | cons a items ih => rw [least_cons_cons, if_pos rfl, ih, Nat.zero_add, Nat.zero_min, Nat.zero_min]

theorem least_le_of_editPath (path : EditPath n first second) : least first second ≤ n := by
  induction path with
  | done items => exact Nat.le_of_eq (least_self items)
  | next edit _ ih => exact (least_le_of_edit edit _).trans (Nat.succ_le_succ ih)

theorem isLeast_least (first second : List α) : IsLeast {n | EditPath n first second} (least first second) :=
  ⟨editPath_least first second, fun _ path => least_le_of_editPath path⟩

theorem least_comm (first second : List α) : least first second = least second first :=
  Nat.le_antisymm (least_le_of_editPath (editPath_least second first).symm)
    (least_le_of_editPath (editPath_least first second).symm)

theorem least_triangle (first second third : List α) : least first third ≤ least first second + least second third :=
  least_le_of_editPath ((editPath_least first second).trans (editPath_least second third))

theorem least_reverse (first second : List α) : least first.reverse second.reverse = least first second := by
  have shorter (first second : List α) : least first.reverse second.reverse ≤ least first second :=
    least_le_of_editPath (editPath_least first second).reverse
  apply Nat.le_antisymm (shorter first second)
  have := shorter first.reverse second.reverse
  rwa [List.reverse_reverse, List.reverse_reverse] at this

/-- What becomes of the last item decides as well. -/
theorem least_concat (a b : α) (first second : List α) : least (first ++ [a]) (second ++ [b]) =
    min (min (least first second + if a = b then 0 else 1) (least first (second ++ [b]) + 1))
      (least (first ++ [a]) second + 1) := by
  rw [← least_reverse, ← least_reverse first second, ← least_reverse first, ← least_reverse _ second,
    List.reverse_append, List.reverse_append]
  exact least_cons_cons a b first.reverse second.reverse

def cells (first second : List α) : List α → List Nat
  | [] => []
  | b :: rest => least first (second ++ [b]) :: cells first (second ++ [b]) rest

def row (first second : List α) : List Nat := least first [] :: cells first [] second

/-- In a row that is under way, the cells on the left belong to the longer list already. -/
theorem rowFrom_cells (a : α) (first second rest : List α) :
    rowFrom a (least (first ++ [a]) second) (least first second) rest (cells first second rest) =
      cells (first ++ [a]) second rest := by
  induction rest generalizing second with
  | nil => rfl
  | cons b rest ih =>
    -- The new cell comes from the one on its left, which is new as well, and from two of the row above.
    have cell := least_concat a b first second
    rw [min_right_comm] at cell
    rw [cells, rowFrom, cells, ← ih (second ++ [b]), cell]

theorem nextRow_row (a : α) (first second : List α) :
    nextRow second (row first second) a = row (first ++ [a]) second := by
  have longer : least (first ++ [a]) [] = least first [] + 1 := by simp [least_nil_right]
  rw [row, nextRow, row, ← rowFrom_cells, longer]

theorem foldl_nextRow (first second rest : List α) :
    rest.foldl (nextRow second) (row first second) = row (first ++ rest) second := by
  induction rest generalizing first with
  | nil => rw [List.foldl_nil, List.append_nil]
  | cons a rest ih => rw [List.foldl_cons, nextRow_row, ih, List.append_assoc, List.singleton_append]

theorem row_nil (second : List α) : row [] second = List.range (second.length + 1) := by
  have cells (front rest : List α) : cells [] front rest = List.range' (front.length + 1) rest.length := by
    induction rest generalizing front with
    | nil => rfl
    | cons b rest ih => rw [Distance.cells, ih, least_nil_left, List.length_append]; rfl
  rw [row, cells, least_nil_left, List.range_eq_range']
  rfl

theorem getLastD_row (first second : List α) : (row first second).getLastD 0 = least first second := by
  have last (front rest : List α) :
      (least first front :: cells first front rest).getLastD 0 = least first (front ++ rest) := by
    induction rest generalizing front with
    | nil => rw [List.append_nil]; rfl
    | cons b rest ih => rw [List.append_cons, ← ih]; rfl
  exact last [] second

/-- The last cell of the last row is the distance of the two lists. -/
theorem edits_eq_least (source target : List α) : edits source target = least source target := by
  rw [edits, ← row_nil, foldl_nextRow, List.nil_append, getLastD_row]

/-- Between two strings the number of edits that is computed is the least number of characters that have to
be inserted, deleted or substituted one after another, by the recursion on the first characters as well as
among all ways to do it. So both directions take as many, and no detour takes fewer. -/
theorem edits_minimal (source target : String) :
    edits source.toList target.toList = least source.toList target.toList ∧
    IsLeast {n | EditPath n source.toList target.toList} (edits source.toList target.toList) ∧
    edits source.toList target.toList = edits target.toList source.toList ∧
    ∀ between : String, edits source.toList target.toList ≤
      edits source.toList between.toList + edits between.toList target.toList := by
  simp only [edits_eq_least, true_and]
  exact ⟨isLeast_least _ _, least_comm _ _, fun between => least_triangle _ _ _⟩

example : edits "kitten".toList "sitting".toList = 3 := by decide

end Distance

end OutOfLine
