import OutOfLine.Member
import OutOfLine.Proofs.Section
import OutOfLine.Proofs.Sorting

/-! The walk over the statements of a section, by what one cell can do to it. The functions that
it finds lie in the section, one after another. -/

namespace OutOfLine

theorem Cell.isCodeByte_of_byte {c : Cell} {b : Byte} (solid : c.isTrivia = false) (byte : c.byte = b) :
    c.isCodeByte b = true := by
  rw [isCodeByte_of_solid solid, byte, beq_self_eq_true]

theorem Cell.solid_of_isCodeByte {c : Cell} {b : Byte} (byte : c.isCodeByte b = true)
    (visible : Byte.isBlank b = false) : c.isTrivia = false := by
  obtain ⟨rfl, code⟩ := of_isCodeByte byte
  simp [isTrivia, code, visible]

namespace Scan

variable {s : Scan} {st : StatementState} {at_ : Nat} {c : Cell} {cells : List Cell}

/-- What the cell `c` at `at_` does to a statement, where the whole of it comes to `r`. -/
inductive StatementStep (s : Scan) (st : StatementState) (at_ : Nat) (c : Cell) (cells : List Cell)
    (r : Except Fault (Option StatementEnd)) : Prop
  | skipped : at_ < st.resume ∨ c.isTrivia = true → s.statementEndFrom st (at_ + 1) cells = r →
      StatementStep s st at_ c cells r
  | semicolon : st.resume ≤ at_ → c.isCodeByte Byte.semicolon = true → st.parens = 0 →
      r = .ok (some (.semicolon at_)) → StatementStep s st at_ c cells r
  | unmatched {e : Fault} : st.resume ≤ at_ → c.isCodeByte Byte.openBrace = true → st.parens = 0 →
      st.opensInitializer = true → s.locateBlock at_ = .error e → r = .error e →
      StatementStep s st at_ c cells r
  | initializer {block : Block} : st.resume ≤ at_ → c.isCodeByte Byte.openBrace = true → st.parens = 0 →
      st.opensInitializer = true → s.locateBlock at_ = .ok block →
      s.statementEndFrom { st with last := some Byte.closeBrace, resume := block.closing + 1 } (at_ + 1)
        cells = r → StatementStep s st at_ c cells r
  | body : st.resume ≤ at_ → c.isCodeByte Byte.openBrace = true → st.parens = 0 →
      st.opensInitializer = false → r = .ok (some (.body at_)) → StatementStep s st at_ c cells r
  | byte : st.resume ≤ at_ → c.isTrivia = false →
      st.parens ≠ 0 ∨ c.byte ≠ Byte.semicolon ∧ c.byte ≠ Byte.openBrace →
      s.statementEndFrom (st.after c.byte (cells.head?.map Cell.byte)) (at_ + 1) cells = r →
      StatementStep s st at_ c cells r

theorem statementEndFrom_cons_iff {r : Except Fault (Option StatementEnd)} :
    s.statementEndFrom st at_ (c :: cells) = r ↔ StatementStep s st at_ c cells r := by
  constructor
  · intro ended
    unfold statementEndFrom at ended
    split at ended
    next skipped => exact .skipped (by simpa using skipped) ended
    next stands =>
    obtain ⟨fresh, solid⟩ : st.resume ≤ at_ ∧ c.isTrivia = false := by simpa using stands
    split at ended
    next ends => exact .semicolon fresh (Cell.isCodeByte_of_byte solid ends.1) ends.2 ended.symm
    next noSemicolon =>
    split at ended
    next brace =>
      have opening := Cell.isCodeByte_of_byte solid brace.1
      split at ended
      next opens =>
        split at ended
        next located => exact .unmatched fresh opening brace.2 opens located ended.symm
        next located => exact .initializer fresh opening brace.2 opens located ended
      next other => exact .body fresh opening brace.2 (by simpa using other) ended.symm
    next noBrace => exact .byte fresh solid (by tauto) ended
  · have braced (fresh : st.resume ≤ at_) (brace : c.isCodeByte Byte.openBrace = true)
        (level : st.parens = 0) : s.statementEndFrom st at_ (c :: cells) =
          if st.opensInitializer then (s.locateBlock at_).bind fun block => s.statementEndFrom
            { st with last := some Byte.closeBrace, resume := block.closing + 1 } (at_ + 1) cells
          else .ok (some (.body at_)) := by
      have solid := Cell.solid_of_isCodeByte brace rfl
      obtain ⟨byte, _⟩ := Cell.of_isCodeByte brace
      rw [statementEndFrom, if_neg (by simp [solid, fresh]), byte,
        if_neg fun both => absurd both.1 (by decide), if_pos ⟨rfl, level⟩]
      cases s.locateBlock at_ <;> rfl
    intro step
    cases step with
    | skipped before goesOn => rw [statementEndFrom, if_pos (by simpa using before), goesOn]
    | semicolon fresh byte level same =>
      have solid := Cell.solid_of_isCodeByte byte rfl
      rw [statementEndFrom, if_neg (by simp [solid, fresh]), if_pos ⟨(Cell.of_isCodeByte byte).1, level⟩,
        same]
    | unmatched fresh brace level opens located same =>
      rw [braced fresh brace level, if_pos opens, located]
      exact same.symm
    | initializer fresh brace level opens located goesOn =>
      rw [braced fresh brace level, if_pos opens, located]
      exact goesOn
    | body fresh brace level other same =>
      rw [braced fresh brace level, if_neg (by simp [other]), same]
    | byte fresh solid inner goesOn =>
      rw [statementEndFrom, if_neg (by simp [solid, fresh]), if_neg (by tauto), if_neg (by tauto), goesOn]

end Scan

namespace Extraction

variable {s : Scan} {markers : List Marker} {resume at_ : Nat} {c : Cell} {cells : List Cell}

/-- The walk takes the cell `c` at `at_` for the beginning of a statement. -/
structure Starts (markers : List Marker) (resume at_ : Nat) (c : Cell) : Prop where
  fresh : resume ≤ at_
  solid : c.isTrivia = false
  unlabelled : markers.find? (·.span.start == at_) = none
  statement : c.byte ≠ Byte.hash

theorem Starts.ahead (starts : Starts markers resume at_ c) :
    (decide (at_ < resume) || c.isTrivia) = false := by
  simp [starts.fresh, starts.solid]

/-- What the walk does at the cell `c`, where it finds `r` from there on. -/
inductive WalkStep (s : Scan) (markers : List Marker) (resume at_ : Nat) (c : Cell) (cells : List Cell)
    (r : Except Fault (List Callable)) : Prop
  | skipped : at_ < resume ∨ c.isTrivia = true → callablesFrom s markers resume (at_ + 1) cells = r →
      WalkStep s markers resume at_ c cells r
  | label {m : Marker} : resume ≤ at_ → c.isTrivia = false →
      markers.find? (·.span.start == at_) = some m →
      callablesFrom s markers m.span.stop (at_ + 1) cells = r → WalkStep s markers resume at_ c cells r
  | directive : resume ≤ at_ → c.isTrivia = false → markers.find? (·.span.start == at_) = none →
      c.byte = Byte.hash → callablesFrom s markers (directiveEnd at_ (c :: cells)) (at_ + 1) cells = r →
      WalkStep s markers resume at_ c cells r
  | failed {e : Fault} : Starts markers resume at_ c → s.statementEnd at_ (c :: cells) = .error e →
      r = .error e → WalkStep s markers resume at_ c cells r
  | endless : Starts markers resume at_ c → s.statementEnd at_ (c :: cells) = .ok none → r = .ok [] →
      WalkStep s markers resume at_ c cells r
  | semicolon {offset : Nat} : Starts markers resume at_ c →
      s.statementEnd at_ (c :: cells) = .ok (some (.semicolon offset)) →
      callablesFrom s markers (offset + 1) (at_ + 1) cells = r → WalkStep s markers resume at_ c cells r
  | unmatched {opening : Nat} {e : Fault} : Starts markers resume at_ c →
      s.statementEnd at_ (c :: cells) = .ok (some (.body opening)) → s.locateBlock opening = .error e →
      r = .error e → WalkStep s markers resume at_ c cells r
  | body {opening : Nat} {body : Block} : Starts markers resume at_ c →
      s.statementEnd at_ (c :: cells) = .ok (some (.body opening)) → s.locateBlock opening = .ok body →
      (callablesFrom s markers (body.closing + 1) (at_ + 1) cells).map
        ((callable? at_ opening (c :: cells) body).toList ++ ·) = r → WalkStep s markers resume at_ c cells r

theorem callablesFrom_cons_iff {r : Except Fault (List Callable)} :
    callablesFrom s markers resume at_ (c :: cells) = r ↔ WalkStep s markers resume at_ c cells r := by
  constructor
  · intro walked
    unfold callablesFrom at walked
    split at walked
    next skipped => exact .skipped (by simpa using skipped) walked
    next stands =>
    obtain ⟨fresh, solid⟩ : resume ≤ at_ ∧ c.isTrivia = false := by simpa using stands
    split at walked
    next known => exact .label fresh solid known walked
    next unlabelled =>
    split at walked
    next hash => exact .directive fresh solid unlabelled hash walked
    next statement =>
    have starts : Starts markers resume at_ c := ⟨fresh, solid, unlabelled, statement⟩
    split at walked
    next ended => exact .failed starts ended walked.symm
    next ended => exact .endless starts ended walked.symm
    next ended => exact .semicolon starts ended walked
    next ended =>
    split at walked
    next located => exact .unmatched starts ended located walked.symm
    next located => exact .body starts ended located walked
  · intro step
    cases step with
    | skipped before goesOn => rw [callablesFrom, if_pos (by simpa using before), goesOn]
    | label fresh solid known goesOn =>
      rw [callablesFrom, if_neg (by simp [solid, fresh]), known]
      exact goesOn
    | directive fresh solid unlabelled hash goesOn =>
      rw [callablesFrom, if_neg (by simp [solid, fresh]), unlabelled, ← goesOn]
      exact if_pos hash
    | failed starts ended same | endless starts ended same =>
      simp only [callablesFrom, starts.ahead, starts.unlabelled, starts.statement, ended, same,
        Bool.false_eq_true, if_false]
    | semicolon starts ended goesOn =>
      simp only [callablesFrom, starts.ahead, starts.unlabelled, starts.statement, ended, goesOn,
        Bool.false_eq_true, if_false]
    | unmatched starts ended located same =>
      simp only [callablesFrom, starts.ahead, starts.unlabelled, starts.statement, ended, located, same,
        Bool.false_eq_true, if_false]
    | body starts ended located goesOn =>
      simp only [callablesFrom, starts.ahead, starts.unlabelled, starts.statement, ended, located, goesOn,
        Bool.false_eq_true, if_false]

end Extraction

structure Scan.Left (s : Scan) (d : Block) (stop at_ : Nat) (cells : List Cell) : Prop where
  outer : d.Located s
  after : d.opening < at_
  upto : stop ≤ d.closing
  cells : cells = (s.cells.take stop).drop at_

namespace Scan.Left

variable {s : Scan} {d : Block} {stop at_ : Nat} {c : Cell} {cells : List Cell}

theorem tail (left : s.Left d stop at_ (c :: cells)) : s.Left d stop (at_ + 1) cells := by
  refine ⟨left.outer, Nat.lt_succ_of_lt left.after, left.upto, ?_⟩
  rw [← List.tail_drop, ← left.cells, List.tail_cons]

theorem getElem? {i : Nat} (left : s.Left d stop at_ cells) (after : at_ ≤ i)
    (found : cells[i - at_]? = some c) : i < stop ∧ s.cells[i]? = some c := by
  rw [left.cells, List.getElem?_drop, Nat.add_sub_cancel' after, List.getElem?_take] at found
  split at found
  next before => exact ⟨before, found⟩
  next => cases found

theorem here (left : s.Left d stop at_ (c :: cells)) : at_ < stop ∧ s.cells[at_]? = some c :=
  left.getElem? (Nat.le_refl at_) (by simp)

end Scan.Left

theorem BodySection.Inside.left {s : Scan} {block : Block} {part : BodySection} {at_ : Nat}
    (inside : part.Inside s block) (valid : block.Located s) (lower : part.span.start ≤ at_) :
    s.Left block part.span.stop at_ ((Span.mk at_ part.span.stop).slice s.cells) := by
  have start := inside.lower
  rw [Block.body] at start
  refine ⟨valid, by dsimp only at start; omega, inside.upper, ?_⟩
  rw [Span.slice, Span.length, List.drop_take]

def StatementEnd.offset : StatementEnd → Nat
  | .semicolon offset => offset
  | .body opening => opening

def StatementEnd.byte : StatementEnd → Byte
  | .semicolon _ => Byte.semicolon
  | .body _ => Byte.openBrace

/-- A byte of a statement leaves the offset where the walk goes on as it is, and does not depend on it. -/
theorem StatementState.after_resume (st : StatementState) (b : Byte) (next : Option Byte) (resume : Nat) :
    (st.after b next).resume = st.resume ∧
      ({ st with resume } : StatementState).after b next = { st.after b next with resume } := by
  unfold after
  split
  · exact ⟨rfl, rfl⟩
  split
  · exact ⟨rfl, rfl⟩
  split <;> exact ⟨rfl, rfl⟩

namespace Scan

variable {s : Scan}

/-- What stands in front of an offset ends neither a word nor an operator. -/
def Clear (s : Scan) (offset : Nat) : Prop :=
  ∃ c, s.cells[offset - 1]? = some c ∧ (c.isTrivia = true ∨
    c.byte ∈ [Byte.colon, Byte.semicolon, Byte.openBrace, Byte.closeBrace])

theorem clear_behind {offset : Nat} {c : Cell} {b : Byte} (there : s.cells[offset]? = some c)
    (is_byte : c.isCodeByte b = true)
    (separates : b ∈ [Byte.colon, Byte.semicolon, Byte.openBrace, Byte.closeBrace]) :
    s.Clear (offset + 1) := by
  simp only [Cell.isCodeByte, Bool.and_eq_true, beq_iff_eq] at is_byte
  exact ⟨c, there, .inr (is_byte.1 ▸ separates)⟩

/-- A statement ends at a byte of code in its section. -/
theorem statementEndFrom_spec {st : StatementState} {at_ : Nat} {cells : List Cell}
    (ended : s.statementEndFrom st at_ cells = .ok (some e)) :
    at_ ≤ e.offset ∧ ∃ c, cells[e.offset - at_]? = some c ∧ c.isCodeByte e.byte = true := by
  induction cells generalizing st at_ with
  | nil => simp [statementEndFrom] at ended
  | cons c cells ih =>
    have later {st : StatementState} (goesOn : s.statementEndFrom st (at_ + 1) cells = .ok (some e)) :
        at_ ≤ e.offset ∧ ∃ d, (c :: cells)[e.offset - at_]? = some d ∧ d.isCodeByte e.byte = true := by
      obtain ⟨after, d, found, byte⟩ := ih goesOn
      have shift : e.offset - at_ = e.offset - (at_ + 1) + 1 := by omega
      exact ⟨by omega, d, by rw [shift, List.getElem?_cons_succ, found], byte⟩
    cases statementEndFrom_cons_iff.mp ended with
    | skipped _ goesOn => exact later goesOn
    | semicolon _ byte _ ends =>
      cases ends
      exact ⟨Nat.le_refl _, c, by simp [StatementEnd.offset], byte⟩
    | unmatched _ _ _ _ _ fails => cases fails
    | initializer _ _ _ _ _ goesOn => exact later goesOn
    | body _ brace _ _ ends =>
      cases ends
      exact ⟨Nat.le_refl _, c, by simp [StatementEnd.offset], brace⟩
    | byte _ _ _ goesOn => exact later goesOn

end Scan

namespace Callable

theorem lengthToLastToken_le (text : Bytes) : lengthToLastToken text ≤ text.length := by
  have := (List.dropWhile_sublist (p := Byte.isBlank) (l := text.reverse)).length_le
  simpa [lengthToLastToken] using this

/-- A text is its tokens and the blanks behind them. -/
theorem blank_of_lengthToLastToken (text : Bytes) :
    ∀ b ∈ text.drop (lengthToLastToken text), Byte.isBlank b = true := by
  have blank := List.all_takeWhile (p := Byte.isBlank) (l := text.reverse)
  have parts := List.takeWhile_append_dropWhile (p := Byte.isBlank) (l := text.reverse)
  rw [lengthToLastToken]
  generalize text.reverse.takeWhile Byte.isBlank = blanks at blank parts
  generalize text.reverse.dropWhile Byte.isBlank = tokens at parts
  have whole := congrArg List.reverse parts
  rw [List.reverse_append, List.reverse_reverse] at whole
  intro b member
  rw [← whole, ← List.length_reverse, List.drop_left, List.mem_reverse] at member
  exact List.all_eq_true.mp blank b member

theorem name?_nil : name? [] = none := by decide

/-- A function that stands before `stop`, from the first token of its statement to its body. -/
structure Placed (s : Scan) (stop : Nat) (c : Callable) : Prop where
  first : ∃ cell, s.cells[c.signature.start]? = some cell ∧ cell.isTrivia = false
  clear : s.Clear c.signature.start
  signature : c.signature.start < c.signature.stop
  joined : c.signature.stop ≤ c.body.opening
  blank : ∀ i, c.signature.stop ≤ i → i < c.body.opening →
    ∀ d, s.cells[i]? = some d → Byte.isBlank d.byte = true
  named : ∃ name, name? (Cell.views (c.signature.slice s.cells)) = some name ∧
    c.name = name.shift c.signature.start
  body : c.body.Located s
  upper : c.body.closing < stop

end Callable

namespace Extraction

variable {s : Scan}

theorem callable?_spec {start opening : Nat} {cells : List Cell} {body : Block} {c : Callable}
    (found : callable? start opening cells body = some c) :
    c.body = body ∧ c.signature.start = start ∧ start < c.signature.stop ∧
      (start ≤ opening → c.signature.stop ≤ opening) ∧
      (∀ i, c.signature.stop - start ≤ i → i < opening - start →
        ∀ d, cells[i]? = some d → Byte.isBlank d.byte = true) ∧
      ∃ name, Callable.name? (Cell.views (cells.take (c.signature.stop - start))) = some name ∧
        c.name = name.shift start := by
  simp only [callable?, Option.bind_eq_bind, Option.bind_eq_some_iff] at found
  obtain ⟨name, named, same⟩ := found
  cases same
  have short := Callable.lengthToLastToken_le (Cell.bytes (cells.take (opening - start)))
  simp only [Cell.bytes, List.length_map, List.length_take] at short
  refine ⟨rfl, rfl, ?_, ?_, ?_, name, ?_, rfl⟩
  · dsimp only
    by_contra short
    have empty : Callable.lengthToLastToken (Cell.bytes (cells.take (opening - start))) = 0 := by omega
    rw [empty, List.take_zero] at named
    simp [Cell.views, Callable.name?_nil] at named
  · intro after
    simp only [Cell.bytes]
    omega
  · intro i low high d inside
    apply Callable.blank_of_lengthToLastToken (Cell.bytes (cells.take (opening - start)))
    rw [Nat.add_sub_cancel_left] at low
    apply List.mem_of_getElem?
      (i := i - Callable.lengthToLastToken (Cell.bytes (cells.take (opening - start))))
    rw [List.getElem?_drop, Nat.add_sub_cancel' low, Cell.bytes, List.getElem?_map,
      List.getElem?_take_of_lt high, inside]
    rfl
  · rw [List.take_take] at named
    rw [Nat.add_sub_cancel_left]
    rwa [Nat.min_eq_left (by simp only [Cell.bytes]; omega)] at named

/-- A function that is found at the beginning of a statement lies in its place. -/
theorem placed_of_callable? {stop at_ opening : Nat} {c : Cell} {body : Block} {f : Callable}
    (here : s.cells[at_]? = some c) (solid : c.isTrivia = false) (clear : s.Clear at_)
    (after : at_ ≤ opening) (before : opening < stop) (opens : body.opening = opening)
    (valid : body.Located s) (closes : body.closing < stop)
    (made : callable? at_ opening ((s.cells.take stop).drop at_) body = some f) :
    f.Placed s stop ∧ f.body = body ∧ f.signature.start = at_ := by
  obtain ⟨rfl, start, signature, joined, blank, name, named, shifted⟩ := callable?_spec made
  have joined := joined after
  refine ⟨⟨⟨c, by rw [start, here], solid⟩, by rwa [start], by omega, by rw [opens]; exact joined, ?_,
    ⟨name, ?_, by rw [start]; exact shifted⟩, valid, closes⟩, rfl, start⟩
  · intro i low high d inside
    apply blank (i - at_) (by omega) (by omega) d
    rw [List.getElem?_drop, List.getElem?_take, show at_ + (i - at_) = i by omega, if_pos (by omega),
      inside]
  · rw [List.drop_take, List.take_take, Nat.min_eq_left (by omega)] at named
    rw [Span.slice, Span.length, start]
    exact named

theorem lt_directiveEnd (start : Nat) (c : Cell) (cells : List Cell) :
    start < directiveEnd start (c :: cells) := by
  unfold directiveEnd
  cases (c :: cells).findIdx? (·.isCodeByte Byte.newline) <;> simp

theorem directiveEnd_spec {start : Nat} {cells : List Cell}
    (before : directiveEnd start cells < start + cells.length) :
    ∃ c, cells[directiveEnd start cells - 1 - start]? = some c ∧ c.isTrivia = true := by
  unfold directiveEnd at before ⊢
  cases found : cells.findIdx? (·.isCodeByte Byte.newline) with
  | none => simp [found] at before
  | some i =>
    obtain ⟨bound, newline, _⟩ := List.findIdx?_eq_some_iff_getElem.mp found
    have place : start + (i + 1) - 1 - start = i := by omega
    simp only [Option.map_some, Option.getD_some, place]
    refine ⟨cells[i], List.getElem?_eq_getElem bound, ?_⟩
    simp only [Cell.isCodeByte, Bool.and_eq_true, beq_iff_eq] at newline
    simp [Cell.isTrivia, newline.1, Byte.isBlank]

structure Series (s : Scan) (start stop : Nat) (found : List Callable) : Prop where
  placed : ∀ c ∈ found, c.Placed s stop ∧ start ≤ c.signature.start
  sorted : found.Pairwise fun a b => a.span.stop ≤ b.span.start

namespace Series

variable {start stop : Nat} {found : List Callable}

theorem nil : Series s start stop [] := ⟨by simp, .nil⟩

theorem mono {later : Nat} (series : Series s later stop found) (before : start ≤ later) :
    Series s start stop found :=
  ⟨fun c member => ⟨(series.placed c member).1, Nat.le_trans before (series.placed c member).2⟩, series.sorted⟩

theorem cons {f : Callable} (placed : f.Placed s stop) (after : start ≤ f.signature.start)
    (series : Series s f.span.stop stop found) : Series s start stop (f :: found) := by
  have short : f.signature.start ≤ f.span.stop := by
    have opens := placed.joined
    have closes := placed.body.lt
    have long := placed.signature
    simp only [Callable.span]
    omega
  refine ⟨List.forall_mem_cons.mpr ⟨⟨placed, after⟩, (series.mono (Nat.le_trans after short)).placed⟩,
    List.pairwise_cons.mpr ⟨fun g member => (series.placed g member).2, series.sorted⟩⟩

end Series

/-- What holds on the way through a section that ends at `stop`, directly inside the block `d`. The
walk goes on at the place `resume`, if it is not past that already. -/
theorem series_of_callablesFrom {d : Block} {markers : List Marker} (labels : ∀ m ∈ markers, m.Inside s d)
    {stop : Nat} (level : s.depthAt stop = d.innerDepth) {resume at_ : Nat} {cells : List Cell}
    {found : List Callable} (left : s.Left d stop at_ cells)
    (clear : max resume at_ < stop → s.Clear (max resume at_))
    (walked : callablesFrom s markers resume at_ cells = .ok found) :
    Series s (max resume at_) stop found := by
  induction cells generalizing resume at_ found with
  | nil =>
    cases walked
    exact .nil
  | cons c cells ih =>
    obtain ⟨small, here⟩ := left.here
    have jump {next : Nat} {later : List Callable} (far : at_ < next) (clear : next < stop → s.Clear next)
        (walked : callablesFrom s markers next (at_ + 1) cells = .ok later) : Series s next stop later := by
      have series := ih left.tail (by rwa [Nat.max_eq_left far]) walked
      rwa [Nat.max_eq_left far] at series
    cases callablesFrom_cons_iff.mp walked with
    | skipped before walked =>
      refine (ih left.tail (fun later => ?_) walked).mono (by omega)
      by_cases behind : at_ < resume
      · rw [show max resume (at_ + 1) = max resume at_ by omega] at later ⊢
        exact clear later
      · have trivia := before.resolve_left behind
        rw [show max resume (at_ + 1) = at_ + 1 by omega]
        exact ⟨c, here, .inl trivia⟩
    | @label m fresh _ known walked =>
      have valid := labels m (List.mem_of_find?_eq_some known)
      have begins : m.span.start = at_ := by simpa using List.find?_some known
      have long := valid.ordered
      obtain ⟨colon, last, byte, _⟩ := valid.last
      exact (jump (by omega) (fun _ => ⟨colon, last, .inr (by simp [byte])⟩) walked).mono (by omega)
    | directive fresh _ _ _ walked =>
      have far : at_ < directiveEnd at_ (c :: cells) := lt_directiveEnd at_ c cells
      refine (jump far (fun before => ?_) walked).mono (by omega)
      have size := congrArg List.length left.cells
      have short := left.outer.closing_lt_length
      have upto := left.upto
      simp only [List.length_drop, List.length_take, Scan.length] at size short
      obtain ⟨newline, last, trivia⟩ := @directiveEnd_spec at_ (c :: cells) (by omega)
      exact ⟨newline, (left.getElem? (by omega) last).2, .inl trivia⟩
    | failed _ _ fails => cases fails
    | endless _ _ none =>
      cases none
      exact .nil
    | semicolon starts ended walked =>
      have fresh := starts.fresh
      obtain ⟨after, semicolon, last, byte⟩ := Scan.statementEndFrom_spec ended
      have stands := (left.getElem? after last).2
      simp only [StatementEnd.offset, StatementEnd.byte] at after stands byte
      exact (jump (by omega) (fun _ => Scan.clear_behind stands byte (by decide)) walked).mono (by omega)
    | unmatched _ _ _ fails => cases fails
    | @body opening body starts ended located walked =>
      obtain ⟨later, further, rfl⟩ := Except.of_map_eq_ok walked
      have fresh := starts.fresh
      obtain ⟨after, brace, last, byte⟩ := Scan.statementEndFrom_spec ended
      obtain ⟨before, stands⟩ := left.getElem? after last
      simp only [StatementEnd.offset] at after before stands
      have opens := Scan.opening_of_locateBlock located stands byte
      have valid := (Scan.located_of_locateBlock located).1
      have inside := left.after
      have closes := left.outer.closing_lt valid (by omega) (by omega) left.upto level
      have long := valid.lt
      obtain ⟨closing, there, closing_byte⟩ := valid.closing
      have series := jump (by omega) (fun _ => Scan.clear_behind there closing_byte (by decide)) further
      cases made : callable? at_ opening (c :: cells) body with
      | none => exact series.mono (by omega)
      | some f =>
        have start := clear (by omega)
        rw [Nat.max_eq_right fresh] at start ⊢
        rw [left.cells] at made
        obtain ⟨own, rfl, begins⟩ :=
          placed_of_callable? here starts.solid start after before opens valid closes made
        exact .cons own (Nat.le_of_eq begins.symm) series

end Extraction

end OutOfLine
