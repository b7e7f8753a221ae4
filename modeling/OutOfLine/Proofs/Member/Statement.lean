import OutOfLine.Proofs.Scan.Window

/-! The walk over a section, statement by statement: the places that it comes to, and the functions that
it has found on the way there. What it does up to a place depends on nothing behind that place. -/
namespace OutOfLine

theorem Span.slice_eq_cons {items : List α} {start stop : Nat} {a : α} (here : items[start]? = some a)
    (before : start < stop) :
    (Span.mk start stop).slice items = a :: (Span.mk (start + 1) stop).slice items := by
  obtain ⟨bound, rfl⟩ := List.getElem?_eq_some_iff.mp here
  rw [slice, slice, List.drop_eq_getElem_cons bound, length, length,
    show stop - start = stop - (start + 1) + 1 by omega, List.take_succ_cons]

theorem Span.drop_slice (items : List α) {start middle : Nat} (after : start ≤ middle) (stop : Nat) :
    ((Span.mk start stop).slice items).drop (middle - start) = (Span.mk middle stop).slice items := by
  simp only [slice, length]
  rw [List.drop_take, List.drop_drop, Nat.add_sub_cancel' after, show stop - start - (middle - start) =
    stop - middle by omega]

namespace Scan

variable {s : Scan} {e : StatementEnd}

theorem statementEndFrom_trivia {st : StatementState} {at_ : Nat} {c : Cell} (trivia : c.isTrivia = true)
    (cells : List Cell) : s.statementEndFrom st at_ (c :: cells) = s.statementEndFrom st (at_ + 1) cells :=
  statementEndFrom_cons_iff.mpr (.skipped (.inr trivia) rfl)

theorem statementEndFrom_byte {st : StatementState} {at_ : Nat} {c : Cell} (fresh : st.resume ≤ at_)
    (solid : c.isTrivia = false)
    (inner : st.parens ≠ 0 ∨ c.byte ≠ Byte.semicolon ∧ c.byte ≠ Byte.openBrace) (cells : List Cell) :
    s.statementEndFrom st at_ (c :: cells) =
      s.statementEndFrom (st.after c.byte (cells.head?.map Cell.byte)) (at_ + 1) cells :=
  statementEndFrom_cons_iff.mpr (.byte fresh solid inner rfl)

/-- Where a statement goes on makes no difference once it is there. -/
theorem statementEndFrom_fresh {st : StatementState} {at_ : Nat} (fresh : st.resume ≤ at_) (cells : List Cell) :
    s.statementEndFrom st at_ cells = s.statementEndFrom { st with resume := 0 } at_ cells := by
  induction cells generalizing st at_ with
  | nil => rfl
  | cons c cells ih =>
    have later : st.resume ≤ at_ + 1 := Nat.le_succ_of_le fresh
    obtain ⟨same, moved⟩ := st.after_resume c.byte (cells.head?.map Cell.byte) 0
    have opens : ({ st with resume := 0 } : StatementState).opensInitializer = st.opensInitializer := rfl
    have further := ih (Nat.le_trans (Nat.le_of_eq same) later)
    unfold statementEndFrom
    simp only [Nat.not_lt.mpr fresh, Nat.not_lt_zero, decide_false, Bool.false_or, moved, opens]
    rw [ih later, further]

theorem statementEndFrom_resume {st : StatementState} {at_ : Nat} (later : at_ ≤ st.resume) (cells : List Cell) :
    s.statementEndFrom st at_ cells =
      s.statementEndFrom { st with resume := 0 } st.resume (cells.drop (st.resume - at_)) := by
  induction cells generalizing at_ with
  | nil => simp [statementEndFrom]
  | cons c cells ih =>
    obtain same | before := Nat.eq_or_lt_of_le later
    · rw [← same, Nat.sub_self, List.drop_zero]
      exact statementEndFrom_fresh (Nat.le_of_eq same.symm) (c :: cells)
    · rw [statementEndFrom_cons_iff.mpr (.skipped (.inl before) rfl), ih before,
        show st.resume - at_ = st.resume - (at_ + 1) + 1 by omega, List.drop_succ_cons]

/-- The brace of an initializer is stepped over with its block. -/
theorem statementEndFrom_initializer {st : StatementState} {at_ : Nat} {c : Cell} {block : Block}
    (fresh : st.resume ≤ at_) (brace : c.isCodeByte Byte.openBrace = true) (level : st.parens = 0)
    (opens : st.opensInitializer = true) (located : s.locateBlock at_ = .ok block)
    (behind : at_ ≤ block.closing) (cells : List Cell) :
    s.statementEndFrom st at_ (c :: cells) =
      s.statementEndFrom { st with last := some Byte.closeBrace, resume := 0 } (block.closing + 1)
        (cells.drop (block.closing - at_)) := by
  refine statementEndFrom_cons_iff.mpr (.initializer fresh brace level opens located ?_)
  rw [statementEndFrom_resume (Nat.succ_le_succ behind), Nat.add_sub_add_right]

theorem statementEndFrom_body {st : StatementState} {at_ : Nat} {c : Cell} (fresh : st.resume ≤ at_)
    (brace : c.isCodeByte Byte.openBrace = true) (level : st.parens = 0)
    (other : st.opensInitializer = false) (cells : List Cell) :
    s.statementEndFrom st at_ (c :: cells) = .ok (some (.body at_)) :=
  statementEndFrom_cons_iff.mpr (.body fresh brace level other rfl)

/-- The front of a text settles how a statement ends, unless the statement goes on behind it. -/
theorem statementEndFrom_append (st : StatementState) (at_ : Nat) (front rest : List Cell) :
    s.statementEndFrom st at_ (front ++ rest) = s.statementEndFrom st at_ front ∨
      s.statementEndFrom st at_ front = .ok none ∧
        ∀ e, s.statementEndFrom st at_ (front ++ rest) = .ok (some e) → at_ + front.length ≤ e.offset := by
  induction front generalizing st at_ with
  | nil => exact .inr ⟨rfl, fun e ended => (statementEndFrom_spec ended).1⟩
  | cons c front ih =>
    have goesOn (st : StatementState) := ih st (at_ + 1)
    rw [List.cons_append, List.length_cons, Nat.add_comm front.length, ← Nat.add_assoc]
    generalize ended : s.statementEndFrom st at_ (c :: front) = r
    cases statementEndFrom_cons_iff.mp ended with
    | skipped before same =>
      rw [statementEndFrom_cons_iff.mpr (.skipped before rfl), ← same]
      exact goesOn st
    | semicolon fresh byte level same => exact .inl (statementEndFrom_cons_iff.mpr (.semicolon fresh byte level same))
    | unmatched fresh brace level opens located same =>
      exact .inl (statementEndFrom_cons_iff.mpr (.unmatched fresh brace level opens located same))
    | initializer fresh brace level opens located same =>
      rw [statementEndFrom_cons_iff.mpr (.initializer fresh brace level opens located rfl), ← same]
      exact goesOn _
    | body fresh brace level other same =>
      exact .inl (statementEndFrom_cons_iff.mpr (.body fresh brace level other same))
    | byte fresh solid inner same =>
      rw [statementEndFrom_cons_iff.mpr (.byte fresh solid inner rfl), ← same]
      cases front with
      | nil => exact .inr ⟨rfl, fun e ended => (statementEndFrom_spec ended).1⟩
      | cons d front => exact goesOn _

/-- Whether the statement at `start` ends with `e`, read no further than that. -/
def EndsWith (s : Scan) (start : Nat) (e : StatementEnd) : Prop :=
  s.statementEnd start ((Span.mk start (e.offset + 1)).slice s.cells) = .ok (some e)

theorem EndsWith.spec {start : Nat} (ends : s.EndsWith start e) :
    start ≤ e.offset ∧ ∃ c, s.cells[e.offset]? = some c ∧ c.isCodeByte e.byte = true := by
  obtain ⟨after, c, found, byte⟩ := statementEndFrom_spec ends
  refine ⟨after, c, ?_, byte⟩
  rw [Span.slice, List.getElem?_take, List.getElem?_drop, Nat.add_sub_cancel' after] at found
  split at found
  · exact found
  · cases found

theorem EndsWith.le_semicolon {start offset : Nat} (ends : s.EndsWith start (.semicolon offset)) :
    start ≤ offset := ends.spec.1

/-- The block that a statement opens stands behind the first token of the statement. -/
theorem EndsWith.body_spec {start opening : Nat} {body : Block} (ends : s.EndsWith start (.body opening))
    (located : s.locateBlock opening = .ok body) :
    body.opening = opening ∧ start ≤ opening ∧ opening < body.closing ∧ body.Located s := by
  obtain ⟨after, c, there, brace⟩ := ends.spec
  have opens := opening_of_locateBlock located there brace
  have valid := (located_of_locateBlock located).1
  exact ⟨opens, after, opens ▸ valid.lt, valid⟩

/-- How a statement ends in a section does not depend on where the section ends. -/
theorem statementEnd_eq_some_iff {start stop : Nat} (inside : stop ≤ s.length) :
    s.statementEnd start ((Span.mk start stop).slice s.cells) = .ok (some e) ↔
      s.EndsWith start e ∧ e.offset < stop := by
  have parts (upto : e.offset + 1 ≤ stop) (after : start ≤ e.offset) :
      (Span.mk start stop).slice s.cells = (Span.mk start (e.offset + 1)).slice s.cells ++
        (Span.mk (e.offset + 1) stop).slice s.cells :=
    (Span.slice_append_slice (by omega) upto s.cells).symm
  constructor
  · intro ended
    obtain ⟨after, c, found, _⟩ := statementEndFrom_spec ended
    have small := (List.getElem?_eq_some_iff.mp found).1
    rw [Span.length_slice, Span.length] at small
    dsimp only at small
    have upto : e.offset + 1 ≤ stop := by omega
    refine ⟨?_, upto⟩
    rw [parts upto after, statementEnd] at ended
    rcases s.statementEndFrom_append {} start ((Span.mk start (e.offset + 1)).slice s.cells)
      ((Span.mk (e.offset + 1) stop).slice s.cells) with same | ⟨_, behind⟩
    · exact same.symm.trans ended
    · have := behind e ended
      rw [Span.length_slice, Span.length, ← Scan.length] at this
      dsimp only at this
      omega
  · rintro ⟨ends, upto⟩
    rw [parts upto ends.spec.1, statementEnd]
    rcases s.statementEndFrom_append {} start ((Span.mk start (e.offset + 1)).slice s.cells)
      ((Span.mk (e.offset + 1) stop).slice s.cells) with same | ⟨none, _⟩
    · exact same.trans ends
    · cases none.symm.trans ends

end Scan

namespace Extraction

variable {s : Scan} {markers : List Marker} {start stop resume at_ : Nat}

/-- The functions that the walk finds from `at_` on in a section that ends at `stop`. -/
def callablesAfter (s : Scan) (markers : List Marker) (stop at_ : Nat) : Except Fault (List Callable) :=
  callablesFrom s markers at_ at_ ((Span.mk at_ stop).slice s.cells)

theorem callablesFrom_fresh (fresh : resume ≤ at_) (cells : List Cell) :
    callablesFrom s markers resume at_ cells = callablesFrom s markers at_ at_ cells := by
  induction cells generalizing resume at_ with
  | nil => rfl
  | cons c cells ih =>
    have here : ¬at_ < resume := by omega
    unfold callablesFrom
    simp only [here, Nat.lt_irrefl, decide_false, Bool.false_or]
    split
    · rw [ih (by omega), ih (Nat.le_succ at_)]
    · rfl

theorem callablesFrom_resume (later : at_ ≤ resume) (cells : List Cell) :
    callablesFrom s markers resume at_ cells =
      callablesFrom s markers resume resume (cells.drop (resume - at_)) := by
  induction cells generalizing at_ with
  | nil => simp [callablesFrom]
  | cons c cells ih =>
    obtain rfl | before := Nat.eq_or_lt_of_le later
    · rw [Nat.sub_self, List.drop_zero]
    · rw [callablesFrom_cons_iff.mpr (.skipped (.inl before) rfl), ih before,
        show resume - at_ = resume - (at_ + 1) + 1 by omega, List.drop_succ_cons]

/-- The walk goes on at `resume`. -/
theorem callablesFrom_jump (later : at_ < resume) :
    callablesFrom s markers resume (at_ + 1) ((Span.mk (at_ + 1) stop).slice s.cells) =
      callablesAfter s markers stop resume := by
  rw [callablesFrom_resume later, Span.drop_slice _ later, callablesAfter]

/-- A function depends on nothing behind the brace of its body. -/
theorem callable?_congr {start opening : Nat} {cells cells' : List Cell} {body : Block}
    (same : cells.take (opening - start) = cells'.take (opening - start)) :
    callable? start opening cells body = callable? start opening cells' body := by
  simp only [callable?, same]

/-- A preprocessor line is over with its first newline, or with the section. -/
theorem directiveEnd_cases (inside : stop ≤ s.length) (before : start ≤ stop) :
    (∃ newline, start ≤ newline ∧ newline < stop ∧ s.cells[newline]? = some ⟨Byte.newline, .code⟩ ∧
      (∀ i, start ≤ i → i < newline → s.cells[i]? ≠ some ⟨Byte.newline, .code⟩) ∧
      directiveEnd start ((Span.mk start stop).slice s.cells) = newline + 1) ∨
    (∀ i, start ≤ i → i < stop → s.cells[i]? ≠ some ⟨Byte.newline, .code⟩) ∧
      directiveEnd start ((Span.mk start stop).slice s.cells) = stop := by
  have cell (i : Nat) (small : i < stop - start) :
      ((Span.mk start stop).slice s.cells)[i]? = s.cells[start + i]? := by
    rw [Span.slice, Span.length, List.getElem?_take_of_lt small, List.getElem?_drop]
  have size : ((Span.mk start stop).slice s.cells).length = stop - start := by
    rw [Span.length_slice, Span.length, ← Scan.length]
    dsimp only
    omega
  rw [directiveEnd]
  cases found : ((Span.mk start stop).slice s.cells).findIdx? (·.isCodeByte Byte.newline) with
  | none =>
    refine .inr ⟨fun i lower upper there => ?_, by
      rw [size, Option.map_none, Option.getD_none, Nat.add_sub_cancel' before]⟩
    have here := cell (i - start) (by omega)
    rw [Nat.add_sub_cancel' lower, there] at here
    cases List.findIdx?_eq_none_iff.mp found _ (List.mem_of_getElem? here)
  | some i =>
    obtain ⟨bound, newline, first⟩ := List.findIdx?_eq_some_iff_getElem.mp found
    have small : i < stop - start := size ▸ bound
    have here := cell i small
    rw [List.getElem?_eq_getElem bound, Cell.eq_of_isCodeByte newline] at here
    refine .inl ⟨start + i, by omega, by omega, here.symm, fun k lower upper there => ?_, ?_⟩
    · have other := cell (k - start) (by omega)
      rw [Nat.add_sub_cancel' lower, there, List.getElem?_eq_getElem (by omega)] at other
      exact first (k - start) (by omega) (by rw [Option.some.inj other]; rfl)
    · rw [Option.map_some, Option.getD_some, Nat.add_assoc]

theorem directiveEnd_eq {newline : Nat} (inside : stop ≤ s.length) (after : start < newline)
    (before : newline < stop) (there : s.cells[newline]? = some ⟨Byte.newline, .code⟩)
    (first : ∀ i, start ≤ i → i < newline → s.cells[i]? ≠ some ⟨Byte.newline, .code⟩) :
    directiveEnd start ((Span.mk start stop).slice s.cells) = newline + 1 := by
  obtain ⟨i, lower, upper, there', first', ends⟩ | ⟨none, _⟩ :=
    directiveEnd_cases inside (Nat.le_of_lt (Nat.lt_trans after before))
  · obtain less | rfl | more := Nat.lt_trichotomy i newline
    · exact absurd there' (first i lower less)
    · exact ends
    · exact absurd there (first' newline (Nat.le_of_lt after) more)
  · exact absurd there (none newline (Nat.le_of_lt after) before)

/-- The cell at `at_` begins a statement: the walk neither steps over it nor finds a label there, and
it begins no preprocessor line. -/
structure Begins (s : Scan) (markers : List Marker) (at_ : Nat) (c : Cell) : Prop where
  here : s.cells[at_]? = some c
  solid : c.isTrivia = false
  unlabelled : markers.find? (·.span.start == at_) = none
  statement : c.byte ≠ Byte.hash

theorem Begins.starts {c : Cell} (begins : Begins s markers at_ c) : Starts markers at_ at_ c :=
  ⟨Nat.le_refl at_, begins.solid, begins.unlabelled, begins.statement⟩

theorem Starts.begins {c : Cell} (starts : Starts markers resume at_ c) (here : s.cells[at_]? = some c) :
    Begins s markers at_ c :=
  ⟨here, starts.solid, starts.unlabelled, starts.statement⟩

section Steps

variable {c : Cell} (before : at_ < stop)
include before

theorem callablesAfter_trivia (here : s.cells[at_]? = some c) (trivia : c.isTrivia = true) :
    callablesAfter s markers stop at_ = callablesAfter s markers stop (at_ + 1) := by
  rw [callablesAfter, Span.slice_eq_cons here before, callablesFrom_cons_iff.mpr (.skipped (.inr trivia) rfl),
    callablesFrom_fresh (Nat.le_succ at_)]
  rfl

theorem callablesAfter_label {m : Marker} (here : s.cells[at_]? = some c) (solid : c.isTrivia = false)
    (known : markers.find? (·.span.start == at_) = some m) (after : at_ < m.span.stop) :
    callablesAfter s markers stop at_ = callablesAfter s markers stop m.span.stop := by
  rw [callablesAfter, Span.slice_eq_cons here before,
    callablesFrom_cons_iff.mpr (.label (Nat.le_refl at_) solid known rfl), callablesFrom_jump after]

theorem callablesAfter_directive (here : s.cells[at_]? = some c) (solid : c.isTrivia = false)
    (unlabelled : markers.find? (·.span.start == at_) = none) (hash : c.byte = Byte.hash) :
    callablesAfter s markers stop at_ = callablesAfter s markers stop
      (directiveEnd at_ ((Span.mk at_ stop).slice s.cells)) := by
  rw [callablesAfter, Span.slice_eq_cons here before,
    callablesFrom_cons_iff.mpr (.directive (Nat.le_refl at_) solid unlabelled hash rfl)]
  exact callablesFrom_jump (lt_directiveEnd ..)

variable (inside : stop ≤ s.length)
include inside

theorem callablesAfter_semicolon {offset : Nat} (begins : Begins s markers at_ c)
    (ends : s.EndsWith at_ (.semicolon offset)) (upto : offset < stop) :
    callablesAfter s markers stop at_ = callablesAfter s markers stop (offset + 1) := by
  have ended := (Scan.statementEnd_eq_some_iff inside).mpr ⟨ends, upto⟩
  rw [Span.slice_eq_cons begins.here before] at ended
  rw [callablesAfter, Span.slice_eq_cons begins.here before,
    callablesFrom_cons_iff.mpr (.semicolon begins.starts ended rfl),
    callablesFrom_jump (Nat.lt_succ_of_le ends.le_semicolon)]

theorem callablesAfter_body {opening : Nat} {body : Block} (begins : Begins s markers at_ c)
    (ends : s.EndsWith at_ (.body opening)) (upto : opening < stop)
    (located : s.locateBlock opening = .ok body) :
    callablesAfter s markers stop at_ = (callablesAfter s markers stop (body.closing + 1)).map
      ((callable? at_ opening (s.cells.drop at_) body).toList ++ ·) := by
  obtain ⟨opens, after, lt, _⟩ := ends.body_spec located
  have same : callable? at_ opening ((Span.mk at_ stop).slice s.cells) body =
      callable? at_ opening (s.cells.drop at_) body := callable?_congr (by
    rw [Span.slice, List.take_take, Span.length,
      Nat.min_eq_left (Nat.sub_le_sub_right (Nat.le_of_lt upto) _)])
  have ended := (Scan.statementEnd_eq_some_iff inside).mpr ⟨ends, upto⟩
  rw [Span.slice_eq_cons begins.here before] at ended same
  rw [callablesAfter, Span.slice_eq_cons begins.here before,
    callablesFrom_cons_iff.mpr (.body begins.starts ended located rfl), same, callablesFrom_jump (by omega)]

end Steps

/-- The walk that begins at `start` comes to a place, with the functions that it has found in front of it. -/
inductive Reached (s : Scan) (markers : List Marker) (start : Nat) : Nat → List Callable → Prop
  | start : Reached s markers start start []
  | trivia {i : Nat} {c : Cell} {found : List Callable} : Reached s markers start i found →
      s.cells[i]? = some c → c.isTrivia = true → Reached s markers start (i + 1) found
  | label {i : Nat} {c : Cell} {m : Marker} {found : List Callable} : Reached s markers start i found →
      s.cells[i]? = some c → c.isTrivia = false → markers.find? (·.span.start == i) = some m →
      i < m.span.stop → Reached s markers start m.span.stop found
  | directive {i j : Nat} {found : List Callable} : Reached s markers start i found →
      s.cells[i]? = some ⟨Byte.hash, .code⟩ → markers.find? (·.span.start == i) = none → i < j →
      s.cells[j]? = some ⟨Byte.newline, .code⟩ →
      (∀ k, i < k → k < j → s.cells[k]? ≠ some ⟨Byte.newline, .code⟩) →
      Reached s markers start (j + 1) found
  | semicolon {i offset : Nat} {c : Cell} {found : List Callable} : Reached s markers start i found →
      Begins s markers i c → s.EndsWith i (.semicolon offset) → Reached s markers start (offset + 1) found
  | body {i opening : Nat} {c : Cell} {body : Block} {found : List Callable} :
      Reached s markers start i found → Begins s markers i c → s.EndsWith i (.body opening) →
      s.locateBlock opening = .ok body → Reached s markers start (body.closing + 1)
        (found ++ (callable? i opening (s.cells.drop i) body).toList)

namespace Reached

variable {i : Nat} {found : List Callable}

/-- What the walk finds is what it has found on the way to a place and what it finds from there on. -/
theorem callablesAfter (reached : Reached s markers start i found) (upto : i ≤ stop)
    (inside : stop ≤ s.length) : callablesAfter s markers stop start =
      (callablesAfter s markers stop i).map (found ++ ·) := by
  induction reached with
  | start =>
    cases Extraction.callablesAfter s markers stop start <;> rfl
  | trivia reached here trivia ih =>
    rw [ih (Nat.le_of_lt upto), callablesAfter_trivia upto here trivia]
  | label reached here solid known after ih =>
    rw [ih (by omega), callablesAfter_label (by omega) here solid known after]
  | @directive i j found reached here unlabelled after there first ih =>
    rw [ih (by omega), callablesAfter_directive (by omega) here rfl unlabelled rfl,
      directiveEnd_eq inside after upto there fun k lower upper => ?_]
    obtain rfl | behind := Nat.eq_or_lt_of_le lower
    · rw [here]
      decide
    · exact first k behind upper
  | semicolon reached begins ends ih =>
    have after := ends.le_semicolon
    rw [ih (by omega), callablesAfter_semicolon (by omega) inside begins ends (by omega)]
  | @body i opening c body found reached begins ends located ih =>
    obtain ⟨_, after, lt, _⟩ := ends.body_spec located
    rw [ih (by omega), callablesAfter_body (by omega) inside begins ends (by omega) located]
    cases Extraction.callablesAfter s markers stop (body.closing + 1) with
    | error e => rfl
    | ok later => simp [Except.map]

end Reached

structure Opens (s : Scan) (markers : List Marker) (start stop at_ : Nat) (body : Block) : Prop where
  reached : ∃ found, Reached s markers start at_ found
  begins : ∃ c, Begins s markers at_ c
  ends : s.EndsWith at_ (.body body.opening)
  upto : body.opening < stop
  located : s.locateBlock body.opening = .ok body

def callableAt? (s : Scan) (at_ : Nat) (body : Block) : Option Callable :=
  callable? at_ body.opening (s.cells.drop at_) body

/-- The walk finds the function of each statement that it comes to. -/
theorem Opens.mem_callablesAfter {body : Block} {all : List Callable} {c : Callable}
    (opens : Opens s markers start stop at_ body) (inside : stop ≤ s.length)
    (made : callableAt? s at_ body = some c) (walked : callablesAfter s markers stop start = .ok all) :
    c ∈ all := by
  obtain ⟨found, reached⟩ := opens.reached
  obtain ⟨cell, begins⟩ := opens.begins
  have upto := opens.upto
  have after : at_ ≤ body.opening := opens.ends.spec.1
  rw [reached.callablesAfter (by omega) inside,
    callablesAfter_body (by omega) inside begins opens.ends upto opens.located,
    show callable? at_ body.opening (s.cells.drop at_) body = some c from made] at walked
  obtain ⟨later, further, rfl⟩ := Except.of_map_eq_ok walked
  obtain ⟨last, _, rfl⟩ := Except.of_map_eq_ok further
  exact List.mem_append_right _ (List.mem_append_left _ (by simp))

theorem callablesAfter_end (after : stop ≤ at_) : callablesAfter s markers stop at_ = .ok [] := by
  rw [callablesAfter, Span.slice, Span.length]
  dsimp only
  rw [Nat.sub_eq_zero_of_le after, List.take_zero]
  rfl

/-- The walk has nothing more to come to in front of `stop`: it is there, or at a statement that does not end
in front of it, or at a preprocessor line that goes on up to it. -/
inductive Over (s : Scan) (markers : List Marker) (stop at_ : Nat) : Prop
  | there : stop ≤ at_ → Over s markers stop at_
  | endless {c : Cell} : Begins s markers at_ c → (∀ e, s.EndsWith at_ e → stop ≤ e.offset) → Over s markers stop at_
  | directive : s.cells[at_]? = some ⟨Byte.hash, .code⟩ →
      (∀ k, at_ < k → k < stop → s.cells[k]? ≠ some ⟨Byte.newline, .code⟩) → Over s markers stop at_

/-- What the walk does where it has come to: it goes on, or takes a statement with its body along, or it is over. -/
inductive Goes (s : Scan) (markers : List Marker) (start stop at_ : Nat) (found later : List Callable) : Prop
  | on {next : Nat} : at_ < stop → at_ < next → Reached s markers start next found →
      callablesAfter s markers stop next = .ok later → Goes s markers start stop at_ found later
  | through {body : Block} {more : List Callable} : at_ < stop → at_ < body.closing + 1 →
      Opens s markers start stop at_ body →
      Reached s markers start (body.closing + 1) (found ++ (callableAt? s at_ body).toList) →
      callablesAfter s markers stop (body.closing + 1) = .ok more →
      later = (callableAt? s at_ body).toList ++ more → Goes s markers start stop at_ found later
  | done : Over s markers stop at_ → later = [] → Goes s markers start stop at_ found later

theorem goes_of_reached {found later : List Callable} (reached : Reached s markers start at_ found)
    (inside : stop ≤ s.length) (labels : ∀ m ∈ markers, m.span.start < m.span.stop)
    (walked : callablesAfter s markers stop at_ = .ok later) : Goes s markers start stop at_ found later := by
  by_cases before : at_ < stop
  swap
  · rw [callablesAfter_end (by omega)] at walked
    exact .done (.there (by omega)) (Except.ok.inj walked).symm
  obtain ⟨cell, here⟩ : ∃ cell, s.cells[at_]? = some cell :=
    ⟨_, List.getElem?_eq_getElem (Nat.lt_of_lt_of_le before inside)⟩
  have stepped := walked
  rw [callablesAfter, Span.slice_eq_cons here before] at stepped
  cases callablesFrom_cons_iff.mp stepped with
  | skipped trivia goesOn =>
    rw [callablesFrom_fresh (Nat.le_succ at_)] at goesOn
    exact .on before (Nat.lt_succ_self at_) (reached.trivia here (trivia.resolve_left (Nat.lt_irrefl at_))) goesOn
  | label _ solid known goesOn =>
    have starts := List.find?_some known
    have after := labels _ (List.mem_of_find?_eq_some known)
    rw [beq_iff_eq.mp starts] at after
    rw [callablesFrom_jump after] at goesOn
    exact .on before after (reached.label here solid known after) goesOn
  | directive _ solid unlabelled hash goesOn =>
    rw [callablesFrom_jump (lt_directiveEnd ..), ← Span.slice_eq_cons here before] at goesOn
    obtain rfl : cell = ⟨Byte.hash, .code⟩ := Cell.eq_of_isCodeByte (Cell.isCodeByte_of_byte solid hash)
    rcases directiveEnd_cases inside (Nat.le_of_lt before) with ⟨j, lower, _, there, first, same⟩ | ⟨none, same⟩
    · have apart : at_ ≠ j := by
        rintro rfl
        cases here.symm.trans there
      rw [same] at goesOn
      exact .on before (by omega) (reached.directive here unlabelled (by omega) there
        fun k low high => first k (Nat.le_of_lt low) high) goesOn
    · rw [same, callablesAfter_end (Nat.le_refl stop)] at goesOn
      exact .done (.directive here fun k low high => none k (Nat.le_of_lt low) high) (Except.ok.inj goesOn).symm
  | failed _ _ fails => cases fails
  | endless starts ended none =>
    refine .done (.endless (starts.begins here) fun e ends => ?_) (Except.ok.inj none)
    by_contra upto
    have stops := (Scan.statementEnd_eq_some_iff inside).mpr ⟨ends, Nat.lt_of_not_le upto⟩
    rw [Span.slice_eq_cons here before, ended] at stops
    cases stops
  | semicolon starts ended goesOn =>
    rw [← Span.slice_eq_cons here before] at ended
    obtain ⟨ends, upto⟩ := (Scan.statementEnd_eq_some_iff inside).mp ended
    have after := ends.le_semicolon
    rw [callablesFrom_jump (Nat.lt_succ_of_le after)] at goesOn
    exact .on before (Nat.lt_succ_of_le after) (reached.semicolon (starts.begins here) ends) goesOn
  | unmatched _ _ _ fails => cases fails
  | @body opening body starts ended located _ =>
    rw [← Span.slice_eq_cons here before] at ended
    obtain ⟨ends, upto⟩ := (Scan.statementEnd_eq_some_iff inside).mp ended
    obtain ⟨rfl, after, lt, _⟩ := ends.body_spec located
    have begins := starts.begins here
    rw [callablesAfter_body before inside begins ends upto located] at walked
    obtain ⟨more, further, same⟩ := Except.of_map_eq_ok walked
    exact .through before (by omega) ⟨⟨_, reached⟩, ⟨_, begins⟩, ends, upto, located⟩
      (reached.body begins ends located) further same.symm

section Walk

variable (inside : stop ≤ s.length) (labels : ∀ m ∈ markers, m.span.start < m.span.stop)
  {found later : List Callable}
include inside labels

/-- All that the walk finds are functions of statements that it comes to. -/
theorem opens_of_mem_callablesAfter (reached : Reached s markers start at_ found)
    (walked : callablesAfter s markers stop at_ = .ok later) :
    ∀ c ∈ later, Opens s markers start stop c.signature.start c.body ∧
      callableAt? s c.signature.start c.body = some c := by
  -- The walk gets nearer to the end with each step.
  generalize left : stop - at_ = fuel
  induction fuel using Nat.strongRecOn generalizing at_ found later with
  | ind fuel ih =>
    subst left
    cases goes_of_reached reached inside labels walked with
    | on before far reached walked => exact ih _ (by omega) reached walked rfl
    | @through body more before far opens reached walked same =>
      intro c member
      rw [same] at member
      rcases List.mem_append.mp member with own | behind
      · have made := Option.mem_toList.mp own
        obtain ⟨block, starts, _⟩ := callable?_spec made
        rw [block, starts]
        exact ⟨opens, made⟩
      · exact ih _ (by omega) reached walked rfl c behind
    | done _ none => simp [none]

/-- The walk comes to the end of its section, or to a place from where on it finds no further statement. -/
theorem exists_over (reached : Reached s markers start at_ found)
    (walked : callablesAfter s markers stop at_ = .ok later) :
    ∃ last all, Reached s markers start last all ∧ Over s markers stop last := by
  generalize left : stop - at_ = fuel
  induction fuel using Nat.strongRecOn generalizing at_ found later with
  | ind fuel ih =>
    subst left
    cases goes_of_reached reached inside labels walked with
    | on before far reached walked => exact ih _ (by omega) reached walked rfl
    | through before far opens reached walked same => exact ih _ (by omega) reached walked rfl
    | done last _ => exact ⟨at_, found, reached, last⟩

end Walk

end Extraction
end OutOfLine
