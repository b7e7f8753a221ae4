import OutOfLine.Proofs.Lexeme.Grammar

/-! The scanner decides its lexical grammar: it opens at every byte the longest lexeme that fits
there, succeeds on the texts that split into lexemes, and fails at the first lexeme that has no
end. -/

namespace OutOfLine

namespace Grammar

/-- The scanner's identifier run in front of a quote is the one that the grammar reads. Other bytes do
not depend on it. -/
def Sees (run before : Bytes) (b : Byte) : Prop :=
  b = Byte.doubleQuote ∨ b = Byte.singleQuote → run.reverse = lastRun before

theorem inNumber_iff {run before : Bytes} (same : run.reverse = lastRun before) :
    InNumber before ↔ Lexeme.isDigitSeparator run = true := by
  rw [InNumber, ← same, List.head?_reverse, Lexeme.isDigitSeparator, Option.any_eq_true]

theorem isDelimiter_iff {delimiter : Bytes} : IsDelimiter delimiter ↔
    delimiter.length ≤ Lexeme.maxDelimiter ∧ Byte.openParen ∉ delimiter ∧
      delimiter.all Lexeme.isDelimiter = true := by
  have each (b : Byte) : (Byte.isBlank b = false ∧
      b ∉ [Byte.backslash, Byte.openParen, Byte.closeParen, Byte.doubleQuote]) ↔
      b ≠ Byte.openParen ∧ Lexeme.isDelimiter b = true := by
    simp only [Lexeme.isDelimiter, List.mem_cons, List.not_mem_nil, or_false, not_or, Bool.not_eq_true',
      Bool.or_eq_false_iff, beq_eq_false_iff_ne]
    tauto
  constructor
  · rintro ⟨short, plain⟩
    refine ⟨short, fun member => ?_, List.all_eq_true.mpr fun b member => ((each b).mp (plain b member)).2⟩
    exact ((each _).mp (plain _ member)).1 rfl
  · rintro ⟨short, apart, plain⟩
    refine ⟨short, fun b member => (each b).mpr ⟨?_, List.all_eq_true.mp plain b member⟩⟩
    rintro rfl
    exact apart member

namespace Begins

variable {run before more : Bytes}

/-- Where a string begins, the opener of a raw string would be longer. -/
theorem ordinary (begins : Begins before .string [Byte.doubleQuote] (Byte.doubleQuote :: more))
    (same : run.reverse = lastRun before) : Lexeme.rawCloser? run more = none := by
  by_contra opened
  obtain ⟨closer, opened⟩ := Option.ne_none_iff_exists'.mp opened
  obtain ⟨known, delimiter, rest, rfl, delimits⟩ := Lexeme.rawCloser?_eq_some.mp opened
  rw [same] at known
  have longer := begins.longest _ _
    (.rawString known (isDelimiter_iff.mpr ⟨delimits.1, delimits.2.1, delimits.2.2.1⟩)) ⟨rest, by simp⟩
  simp at longer

/-- Where a slash is a byte of code, the opener of a comment would be longer. -/
theorem no_comment (begins : Begins before .single [Byte.slash] (Byte.slash :: more)) :
    more.head? ≠ some Byte.slash ∧ more.head? ≠ some Byte.star := by
  constructor
  · intro head
    obtain ⟨rest, rfl⟩ := List.head?_eq_some_iff.mp head
    have longer := begins.longest _ _ .lineComment ⟨rest, rfl⟩
    simp at longer
  · intro head
    obtain ⟨rest, rfl⟩ := List.head?_eq_some_iff.mp head
    have longer := begins.longest _ _ .blockComment ⟨rest, rfl⟩
    simp at longer

end Begins

/-- The closer of a raw string does not begin in the delimiter in front of it. -/
theorem find?_rawCloser {delimiter : Bytes} (delimits : IsDelimiter delimiter) (more : Bytes) :
    Bytes.find? (Form.rawCloser delimiter) (delimiter ++ [Byte.openParen] ++ more) =
      (Bytes.find? (Form.rawCloser delimiter) more).map (· + (delimiter ++ [Byte.openParen]).length) := by
  refine Bytes.find?_append ?_ _ _
  intro member
  rcases List.mem_append.mp member with inside | paren
  · exact (delimits.plain _ inside).2 (by simp)
  · exact absurd (List.mem_singleton.mp paren) (by decide)

/-- What the scanner finds at the beginning of a text is what begins there. -/
theorem extent_of_begins {run before text opener : Bytes} {b : Byte} {form : Form}
    (sees : Sees run before b) (begins : Begins before form opener (b :: text)) :
    ∃ front more, opener = b :: front ∧ text = front ++ more ∧
      (∀ n, form.reach? more = some n → Lexeme.extent run b text = .ok (form.cls, front.length + n)) ∧
      (form.reach? more = none → ∃ kind, form.opener? = some kind ∧
        Lexeme.extent run b text = .error kind) := by
  simp only [Lexeme.extent_eq_iff]
  have chosen := begins
  obtain ⟨opens, ⟨more, whole⟩, _⟩ := begins
  cases opens with
  | lineComment =>
    obtain ⟨rfl, rfl⟩ := List.cons.inj whole
    refine ⟨_, more, rfl, rfl, fun n reached => ?_, fun unended => by cases unended⟩
    cases reached
    rw [List.length_singleton, Nat.add_comm]
    exact .lineComment rfl rfl
  | blockComment =>
    obtain ⟨rfl, rfl⟩ := List.cons.inj whole
    refine ⟨_, more, rfl, rfl, fun n reached => ?_, fun unended => ⟨_, rfl, .openComment rfl rfl unended⟩⟩
    rw [List.length_singleton, Nat.add_comm]
    exact .blockComment rfl rfl reached
  | @rawString delimiter known delimits =>
    obtain ⟨rfl, rfl⟩ := List.cons.inj whole
    obtain ⟨short, apart, plain⟩ := isDelimiter_iff.mp delimits
    have opened : Lexeme.rawCloser? run (delimiter ++ [Byte.openParen] ++ more) =
        some (Form.rawCloser delimiter) := by
      refine Lexeme.rawCloser?_eq_some.mpr ⟨?_, delimiter, more, by simp, short, apart, plain, rfl⟩
      rw [sees (.inl rfl)]
      exact known
    have found := find?_rawCloser delimits more
    refine ⟨_, more, rfl, rfl, fun n reached => ?_, fun unended => ⟨_, rfl, ?_⟩⟩
    · obtain ⟨k, closes, rfl⟩ := Option.map_eq_some_iff.mp reached
      rw [closes] at found
      rw [← Nat.add_assoc, Nat.add_comm _ k]
      exact .rawString rfl opened found
    · rw [Form.reach?, Option.map_eq_none_iff] at unended
      rw [unended] at found
      exact .openRaw rfl opened found
  | string =>
    obtain ⟨rfl, rfl⟩ := List.cons.inj whole
    have plain := chosen.ordinary (sees (.inl rfl))
    refine ⟨_, more, rfl, rfl, fun n reached => ?_, fun unended => ⟨_, rfl, .openString rfl plain unended⟩⟩
    rw [List.length_nil, Nat.zero_add]
    exact .string rfl plain reached
  | char apart =>
    obtain ⟨rfl, rfl⟩ := List.cons.inj whole
    rw [inNumber_iff (sees (.inr rfl)), Bool.not_eq_true] at apart
    refine ⟨_, more, rfl, rfl, fun n reached => ?_, fun unended => ⟨_, rfl, .openChar rfl apart unended⟩⟩
    rw [List.length_nil, Nat.zero_add]
    exact .char rfl apart reached
  | @single c noString separator =>
    obtain ⟨rfl, rfl⟩ := List.cons.inj whole
    refine ⟨_, more, rfl, rfl, fun n reached => ?_, fun unended => by cases unended⟩
    cases reached
    refine .single ?_ noString fun quote => (inNumber_iff (sees (.inr quote))).mp (separator quote)
    rintro rfl
    exact chosen.no_comment

/-- A lexeme of the grammar is one that the scanner takes. -/
theorem isLexeme_iff {run before body rest : Bytes} {b : Byte} {cls : LexClass}
    (sees : Sees run before b) : IsLexeme before cls (b :: body) rest ↔
      Lexeme.extent run b (body ++ rest) = .ok (cls, body.length) := by
  constructor
  · rintro ⟨form, opener, tail, rfl, whole, begins, closes⟩
    rw [List.cons_append] at begins
    obtain ⟨front, more, rfl, text_eq, reached, _⟩ := extent_of_begins sees begins
    obtain rfl : body = front ++ tail := (List.cons.inj whole).2
    rw [List.append_assoc] at text_eq
    rw [reached tail.length (List.append_cancel_left text_eq ▸ closes_iff.mp closes), List.length_append]
  · intro taken
    obtain ⟨form, opener, begins⟩ := exists_begins before b (body ++ rest)
    obtain ⟨front, more, rfl, text_eq, reached, unended⟩ := extent_of_begins sees begins
    cases reach : form.reach? more with
    | none =>
      obtain ⟨kind, _, failed⟩ := unended reach
      rw [failed] at taken
      cases taken
    | some n =>
      rw [reached n reach] at taken
      obtain ⟨rfl, length⟩ : form.cls = cls ∧ front.length + n = body.length := by simpa using taken
      have inside := reach_le reach
      have short : (more.take n).length = n := List.length_take_of_le inside
      obtain ⟨rfl, rfl⟩ : body = front ++ more.take n ∧ rest = more.drop n := by
        apply List.append_inj
        · rw [List.append_assoc, List.take_append_drop, text_eq]
        · rw [List.length_append, short, length]
      refine ⟨form, _, more.take n, rfl, rfl, begins, closes_iff.mpr ?_⟩
      rw [List.take_append_drop, reach, short]

/-- A lexeme without an end is one that the scanner reports. -/
theorem unended_iff {run before text : Bytes} {b : Byte} {opener : Opener}
    (sees : Sees run before b) :
    Unended before opener (b :: text) ↔ Lexeme.extent run b text = .error opener := by
  constructor
  · rintro ⟨form, start, kind, begins, unended⟩
    obtain ⟨front, more, rfl, rfl, _, failed⟩ := extent_of_begins sees begins
    cases reach : form.reach? more with
    | none =>
      obtain ⟨other, same, failed⟩ := failed reach
      obtain rfl := Option.some.inj (same.symm.trans kind)
      exact failed
    | some n =>
      have parts := List.take_append_drop n more
      have short : (more.take n).length = n := List.length_take_of_le (reach_le reach)
      refine absurd (closes_iff.mpr ?_) (unended (more.take n) (more.drop n) (by rw [parts]; rfl))
      rw [parts, reach, short]
  · intro failed
    obtain ⟨form, start, begins⟩ := exists_begins before b text
    obtain ⟨front, more, rfl, rfl, reached, unended⟩ := extent_of_begins sees begins
    cases reach : form.reach? more with
    | some n =>
      rw [reached n reach] at failed
      cases failed
    | none =>
      obtain ⟨kind, same, failed'⟩ := unended reach
      rw [failed'] at failed
      cases failed
      refine ⟨form, _, same, begins, fun tail rest whole closes => ?_⟩
      rw [closes_iff, ← List.append_cancel_left (List.cons.inj whole).2, reach] at closes
      cases closes

theorem Quoted.backslash_before {quote : Byte} (plain : quote ≠ Byte.backslash) {body : Bytes}
    (quoted : Quoted quote body) :
    ∀ i, body[i]? = some quote → ∃ k, i = k + 1 ∧ body[k]? = some Byte.backslash := by
  induction quoted with
  | nil => simp
  | pair _ ih =>
    intro i found
    match i with
    | 0 => exact absurd (Option.some.inj found).symm plain
    | 1 => exact ⟨0, rfl, rfl⟩
    | i + 2 =>
      obtain ⟨k, rfl, before⟩ := ih i (by simpa using found)
      exact ⟨k + 2, rfl, by simpa using before⟩
  | byte _ open_ _ ih =>
    intro i found
    match i with
    | 0 => exact absurd (Option.some.inj found) open_
    | i + 1 =>
      obtain ⟨k, rfl, before⟩ := ih i (by simpa using found)
      exact ⟨k + 1, rfl, by simpa using before⟩

/-- An ordinary string that begins where a raw one does reaches no further. -/
theorem Quoted.le_raw {delimiter body after rest : Bytes} (quoted : Quoted Byte.doubleQuote body)
    (delimits : IsDelimiter delimiter) (raw : Bytes)
    (whole : body ++ Byte.doubleQuote :: after =
      raw ++ (Byte.closeParen :: delimiter ++ Byte.doubleQuote :: rest)) :
    body.length ≤ (raw ++ Byte.closeParen :: delimiter).length := by
  by_contra far
  have at_ (i : Nat) (inside : i < body.length) :
      body[i]? = (raw ++ (Byte.closeParen :: delimiter ++ Byte.doubleQuote :: rest))[i]? := by
    rw [← whole, List.getElem?_append_left inside]
  -- The quote that ends the raw string would stand inside the other one, behind a backslash.
  obtain ⟨k, length, before⟩ := quoted.backslash_before (by decide)
    (raw ++ Byte.closeParen :: delimiter).length (by
      rw [at_ _ (by omega), ← List.append_assoc, List.getElem?_append_right (Nat.le_refl _), Nat.sub_self]
      rfl)
  rw [List.length_append, List.length_cons] at length far
  rw [at_ k (by omega), List.getElem?_append_right (by omega), List.getElem?_append_left
    (by rw [List.length_cons]; omega)] at before
  rcases List.mem_cons.mp (List.mem_of_getElem? before) with paren | inside
  · exact absurd paren (by decide)
  · exact (delimits.plain _ inside).2 (by simp)

/-- Of two raw openers in one place neither is longer. -/
theorem IsDelimiter.le {delimiter other after rest : Bytes} (delimits : IsDelimiter delimiter)
    (whole : other ++ Byte.openParen :: after = delimiter ++ Byte.openParen :: rest) :
    delimiter.length ≤ other.length := by
  by_contra longer
  have paren : delimiter[other.length]? = some Byte.openParen := by
    rw [← List.getElem?_append_left (by omega), ← whole, List.getElem?_append_right (Nat.le_refl _),
      Nat.sub_self]
    rfl
  exact (delimits.plain _ (List.mem_of_getElem? paren)).2 (by simp)

theorem Opens.long {before opener : Bytes} {form : Form} (opens : Opens before form opener)
    (two : 2 ≤ opener.length) : (∃ b, opener = [Byte.slash, b]) ∨
      ∃ delimiter, form = .rawString delimiter ∧ IsDelimiter delimiter ∧
        opener = Byte.doubleQuote :: delimiter ++ [Byte.openParen] := by
  cases opens with
  | lineComment => exact .inl ⟨_, rfl⟩
  | blockComment => exact .inl ⟨_, rfl⟩
  | rawString _ delimits => exact .inr ⟨_, rfl, delimits, rfl⟩
  | string => simp at two
  | char => simp at two
  | single => simp at two

/-- No other shape that fits where a lexeme begins reaches further than the lexeme. -/
theorem IsLexeme.longest {before lexeme rest opener tail after : Bytes} {cls : LexClass} {form : Form}
    (here : IsLexeme before cls lexeme rest) (opens : Opens before form opener)
    (whole : opener ++ (tail ++ after) = lexeme ++ rest) (closes : Closes form tail after) :
    (opener ++ tail).length ≤ lexeme.length := by
  have known := here
  obtain ⟨chosen, start, ending, rfl, rfl, begins, ends⟩ := here
  have shorter := begins.longest form opener opens ⟨tail ++ after, whole⟩
  by_cases same : opener.length = start.length
  · have other : IsLexeme before form.cls (opener ++ tail) after := by
      refine ⟨form, opener, tail, rfl, rfl, ⟨opens, ⟨tail ++ after, by simp⟩, ?_⟩, closes⟩
      rw [List.append_assoc, whole, same]
      exact begins.longest
    have sees (b : Byte) : Sees (lastRun before).reverse before b := fun _ => List.reverse_reverse _
    obtain ⟨b, front, rfl⟩ := List.exists_cons_of_length_pos opens.one_le
    obtain ⟨c, first, rfl⟩ := List.exists_cons_of_length_pos begins.opens.one_le
    rw [List.cons_append] at other known
    simp only [List.cons_append, List.cons.injEq] at whole
    obtain ⟨rfl, whole⟩ := whole
    have one := (isLexeme_iff (sees b)).mp other
    have two := (isLexeme_iff (sees b)).mp known
    rw [List.append_assoc, whole, two] at one
    simp at one ⊢
    omega
  · have head : opener.head? = start.head? := by
      have same := congrArg List.head? whole
      rwa [List.append_assoc, List.head?_append_of_ne_nil _ (List.ne_nil_of_length_pos opens.one_le),
        List.head?_append_of_ne_nil _ (List.ne_nil_of_length_pos begins.opens.one_le)] at same
    have positive := opens.one_le
    rcases begins.opens.long (by omega) with ⟨b, rfl⟩ | ⟨delimiter, rfl, delimits, rfl⟩
    · cases opens with
      | lineComment => exact absurd rfl same
      | blockComment => exact absurd rfl same
      | rawString => exact absurd (Option.some.inj head) (by decide)
      | string => exact absurd (Option.some.inj head) (by decide)
      | char => exact absurd (Option.some.inj head) (by decide)
      | single =>
        cases closes
        simp
    · cases opens with
      | lineComment => exact absurd (Option.some.inj head) (by decide)
      | blockComment => exact absurd (Option.some.inj head) (by decide)
      | rawString =>
        have := delimits.le (by simpa using whole)
        simp at shorter same
        omega
      | string =>
        cases ends
        cases closes with
        | string quoted =>
        have := quoted.le_raw delimits (delimiter ++ Byte.openParen :: _)
          (by simpa [Form.rawCloser] using whole)
        simp [Form.rawCloser] at this ⊢
        omega
      | char => exact absurd (Option.some.inj head) (by decide)
      | single noString => exact absurd (Option.some.inj head) noString

end Grammar

open Cell

namespace Grammar

theorem lastRun_concat (before : Bytes) (b : Byte) :
    lastRun (before ++ [b]) = if Byte.isIdent b then lastRun before ++ [b] else [] :=
  List.rtakeWhile_concat Byte.isIdent before b

/-- The scanner's identifier run is that of the text so far, or a newline comes next: a line comment
may end in an identifier, which the scanner does not count. -/
def Agrees (run before text : Bytes) : Prop :=
  ∀ b ∈ text.head?, b ≠ Byte.newline → run.reverse = lastRun before

theorem Agrees.sees {run before text : Bytes} {b : Byte} (agrees : Agrees run before (b :: text)) :
    Sees run before b := by
  rintro (rfl | rfl)
  · exact agrees Byte.doubleQuote rfl (by decide)
  · exact agrees Byte.singleQuote rfl (by decide)

/-- No literal and no comment ends in an identifier that a quote could follow. -/
theorem Agrees.behind {run before body rest : Bytes} {b : Byte} {cls : LexClass}
    (agrees : Agrees run before (b :: (body ++ rest)))
    (taken : Lexeme.extent run b (body ++ rest) = .ok (cls, body.length)) :
    Agrees (runOver run (uniform cls (b :: body))) (before ++ b :: body) rest := by
  rintro next first solid
  by_cases code : cls = .code
  · subst code
    obtain rfl := List.eq_nil_of_length_eq_zero (Lexeme.extent_code_iff.mp taken).1
    rw [lastRun_concat]
    by_cases ident : Byte.isIdent b = true
    · have same := agrees b rfl (by rintro rfl; cases ident)
      simp [runAfter, isCode, ident, same]
    · simp [runAfter, isCode, ident]
  · obtain ⟨c, last, class_eq, byte⟩ := exists_getLast?_uniform [] cls b body
    rw [List.nil_append] at last
    rw [runOver_of_last last (by simp [isCode, class_eq, code])]
    have apart : Byte.isIdent c.byte = false := by
      by_cases line : cls = .lineComment
      · subst line
        obtain ⟨more, rfl⟩ := List.head?_eq_some_iff.mp first
        exact absurd (Lexeme.extent_line_retail taken []).1 solid
      · obtain ⟨positive, _, ⟨q, ends, closer⟩, _⟩ := Lexeme.extent_closed taken code line
        rw [List.getElem?_append_left (by omega), ← List.getLast?_eq_getElem?] at ends
        obtain ⟨d, body, rfl⟩ : ∃ d more, body = d :: more :=
          List.exists_cons_of_length_pos positive
        rw [List.getLast?_cons_cons, ends] at byte
        obtain rfl := Option.some.inj byte
        exact (by decide +kernel : ∀ b ∈ [Byte.slash, Byte.doubleQuote, Byte.singleQuote],
          Byte.isIdent b = false) _ closer
    obtain ⟨front, whole⟩ := List.getLast?_eq_some_iff.mp byte
    rw [whole, ← List.append_assoc, lastRun_concat, apart]
    rfl

/-- What the scanner reads splits into lexemes. -/
theorem splits_of_reads {run before tail : Bytes} {cells : List Cell} (read : Reads run cells tail)
    (agrees : Agrees run before (bytes cells ++ tail)) :
    ∃ lexemes, Splits before lexemes tail ∧ lexemes.cells = cells ∧
      Agrees (runOver run cells) (before ++ bytes cells) tail := by
  induction read generalizing before with
  | nil => exact ⟨[], .nil, rfl, by simpa using agrees⟩
  | @lexeme run b body cls rest tail taken _ ih =>
    rw [bytes_append, bytes_uniform, List.append_assoc, List.cons_append] at agrees
    obtain ⟨lexemes, split, rfl, later⟩ := ih (agrees.behind taken)
    rw [Lexemes.bytes_cells] at taken later
    exact ⟨(cls, b :: body) :: lexemes, .cons ((isLexeme_iff agrees.sees).mpr taken) split, rfl, by
      simpa [runOver_append] using later⟩

/-- What splits into lexemes is read by the scanner. -/
theorem reads_of_splits {run before tail : Bytes} {lexemes : Lexemes}
    (split : Splits before lexemes tail) (agrees : Agrees run before (lexemes.bytes ++ tail)) :
    Reads run lexemes.cells tail ∧
      Agrees (runOver run lexemes.cells) (before ++ lexemes.bytes) tail := by
  induction split generalizing run with
  | nil => exact ⟨.nil, by simpa using agrees⟩
  | @cons before lexeme tail cls lexemes here _ ih =>
    obtain ⟨b, body, rfl⟩ : ∃ b body, lexeme = b :: body := by
      obtain ⟨_, opener, _, _, rfl, begins, _⟩ := here
      apply List.exists_cons_of_length_pos
      have := begins.opens.one_le
      rw [List.length_append]
      omega
    rw [Lexemes.bytes_cons, List.append_assoc, List.cons_append] at agrees
    have taken := (isLexeme_iff agrees.sees).mp here
    obtain ⟨read, later⟩ := ih (agrees.behind taken)
    rw [← Lexemes.bytes_cells] at taken
    exact ⟨.lexeme taken read, by simpa [runOver_append] using later⟩

/-- A text is read to its end, or up to a lexeme that has none. -/
theorem exists_reads (run text : Bytes) : ∃ cells tail, Reads run cells tail ∧
    bytes cells ++ tail = text ∧ ∀ b rest, tail = b :: rest →
      ∃ opener, Lexeme.extent (runOver run cells) b rest = .error opener := by
  induction length : text.length using Nat.strong_induction_on generalizing run text with
  | _ size ih =>
    cases text with
    | nil => exact ⟨[], [], .nil, rfl, fun _ _ same => by cases same⟩
    | cons b text =>
      cases taken : Lexeme.extent run b text with
      | error opener =>
        refine ⟨[], b :: text, .nil, rfl, fun c rest same => ?_⟩
        obtain ⟨rfl, rfl⟩ := List.cons.inj same
        exact ⟨opener, taken⟩
      | ok found =>
        obtain ⟨cls, n⟩ := found
        have inside := Lexeme.extent_le taken
        have short : (text.take n).length = n := List.length_take_of_le inside
        obtain ⟨cells, tail, read, whole, stuck⟩ := ih (text.drop n).length
          (by rw [List.length_drop, ← length, List.length_cons]; omega)
          (runOver run (uniform cls (b :: text.take n))) (text.drop n) rfl
        refine ⟨uniform cls (b :: text.take n) ++ cells, tail, .lexeme ?_ read, ?_, ?_⟩
        · rw [whole, List.take_append_drop, taken, short]
        · rw [bytes_append, bytes_uniform, List.append_assoc, whole, List.cons_append,
            List.take_append_drop]
        · rwa [runOver_append]

end Grammar

namespace Scan
open Grammar

theorem eq_of_cells {s t : Scan} (same : s.cells = t.cells) : s = t := by
  obtain ⟨cells, _, rfl⟩ := s
  obtain ⟨cells', _, rfl⟩ := t
  obtain rfl : cells = cells' := same
  rfl

/-- The scan fails where the text can be read no further. -/
theorem of_eq_error {cells : List Cell} {b : Byte} {rest : Bytes} {opener : Opener}
    (read : Reads [] cells (b :: rest))
    (failed : Lexeme.extent (runOver [] cells) b rest = .error opener) :
    Scan.of (Cell.bytes cells ++ b :: rest) = .error (.unterminated opener (Cell.bytes cells).length
      (lineAt (Cell.bytes cells ++ b :: rest) (Cell.bytes cells).length)) := by
  obtain ⟨cls, classified⟩ := classifyFrom_of_reads read .code []
  have found : classify (Cell.bytes cells ++ b :: rest) = .error ⟨opener, (Cell.bytes cells).length⟩ := by
    rw [classify, classified, classifyFrom, failed]
    simp [Cell.bytes]
  rw [Scan.of, found]

/-- Behind what can be read, a scan fails at a lexeme that has no end. -/
theorem exists_unended {front : List Cell} {tail : Bytes} {fault : Fault} (read : Reads [] front tail)
    (failed : Scan.of (Cell.bytes front ++ tail) = .error fault) :
    ∃ cells b rest opener, Reads (runOver [] front) cells (b :: rest) ∧ Cell.bytes cells ++ b :: rest = tail ∧
      Lexeme.extent (runOver [] (front ++ cells)) b rest = .error opener ∧
      fault = .unterminated opener (front ++ cells).length
        (lineAt (Cell.bytes front ++ tail) (front ++ cells).length) := by
  obtain ⟨cells, left, later, rfl, stuck⟩ := exists_reads (runOver [] front) tail
  have both := read.append later
  cases left with
  | nil =>
    obtain ⟨_, scanned, _⟩ := of_eq_ok both
    rw [List.append_nil, ← bytes_append, scanned] at failed
    cases failed
  | cons b rest =>
    obtain ⟨opener, unended⟩ := stuck b rest rfl
    rw [← runOver_append] at unended
    have found := of_eq_error both unended
    rw [bytes_append, List.append_assoc, failed, ← bytes_append, Cell.bytes, List.length_map] at found
    exact ⟨cells, b, rest, opener, later, rfl, unended, Except.error.inj found⟩

/-- A scan succeeds exactly when the text splits into lexemes, and gives their bytes with their
classes. It fails exactly when the text in front splits and the next lexeme has no end, and names that
one's kind and offset. In a split each lexeme is the longest of all shapes that fit in its place. -/
theorem of_iff_splits (text : Bytes) :
    (∀ s, Scan.of text = .ok s ↔
      ∃ lexemes, Splits [] lexemes [] ∧ lexemes.bytes = text ∧ lexemes.cells = s.cells) ∧
    (∀ fault, Scan.of text = .error fault ↔
      ∃ lexemes rest opener, Splits [] lexemes rest ∧ lexemes.bytes ++ rest = text ∧
        Unended lexemes.bytes opener rest ∧
        fault = .unterminated opener lexemes.bytes.length (lineAt text lexemes.bytes.length)) ∧
    ∀ before cls lexeme rest, IsLexeme before cls lexeme rest →
      ∀ form opener tail after, Opens before form opener →
        opener ++ (tail ++ after) = lexeme ++ rest → Closes form tail after →
          (opener ++ tail).length ≤ lexeme.length := by
  have start (text : Bytes) : Agrees [] [] text := fun _ _ _ => rfl
  refine ⟨fun s => ⟨fun scanned => ?_, ?_⟩, fun fault => ⟨fun failed => ?_, ?_⟩,
    fun _ _ _ _ here _ _ _ _ opens whole closes => here.longest opens whole closes⟩
  · obtain ⟨lexemes, split, same, _⟩ := splits_of_reads (reads_of_ok scanned) (start _)
    refine ⟨lexemes, split, ?_, same⟩
    rw [← Lexemes.bytes_cells, same]
    exact bytes_of_ok scanned
  · rintro ⟨lexemes, split, rfl, same⟩
    obtain ⟨found, scanned, cells⟩ := of_eq_ok (reads_of_splits split (start _)).1
    rw [Lexemes.bytes_cells] at scanned
    rw [scanned, eq_of_cells (cells.trans same)]
  · obtain ⟨cells, tail, read, rfl, stuck⟩ := exists_reads [] text
    cases tail with
    | nil =>
      obtain ⟨s, scanned, _⟩ := of_eq_ok read
      rw [List.append_nil, scanned] at failed
      cases failed
    | cons b rest =>
      obtain ⟨opener, unended⟩ := stuck b rest rfl
      obtain ⟨lexemes, split, rfl, agrees⟩ := splits_of_reads read (start _)
      rw [of_eq_error read unended] at failed
      cases failed
      rw [Lexemes.bytes_cells] at agrees ⊢
      exact ⟨lexemes, b :: rest, opener, split, rfl, (unended_iff agrees.sees).mpr unended, rfl⟩
  · rintro ⟨lexemes, rest, opener, split, rfl, unended, rfl⟩
    obtain ⟨read, agrees⟩ := reads_of_splits split (start _)
    obtain ⟨b, rest, rfl⟩ : ∃ b more, rest = b :: more := by
      obtain ⟨_, start, _, begins, _⟩ := unended
      apply List.exists_cons_of_length_pos
      have := begins.opens.one_le
      have := begins.fits.length_le
      omega
    rw [← Lexemes.bytes_cells]
    exact of_eq_error read ((unended_iff agrees.sees).mp unended)

end Scan

end OutOfLine
