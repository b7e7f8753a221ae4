import Mathlib.Data.List.Basic
import Mathlib.Data.Option.Basic
import OutOfLine.Lexeme

/-! How far a lexeme reaches. What it takes is in the text, and is the same in every text that begins
in the same way and goes on so that the lexeme ends there. -/
namespace OutOfLine

theorem Bytes.find?_le {needle text : Bytes} (found : Bytes.find? needle text = some n) :
    n + needle.length ≤ text.length := by
  induction text generalizing n with
  | nil =>
    simp only [find?] at found
    split at found
    next empty => cases found; simp [empty]
    next => cases found
  | cons b rest ih =>
    simp only [find?] at found
    split at found
    next fits =>
      cases found
      have := (List.isPrefixOf_iff_prefix.mp fits).length_le
      omega
    next =>
      obtain ⟨m, later, rfl⟩ := Option.map_eq_some_iff.mp found
      have := ih later
      simp only [List.length_cons]
      omega

theorem Bytes.find?_prefix {needle text : Bytes} (found : Bytes.find? needle text = some n) :
    needle <+: text.drop n := by
  induction text generalizing n with
  | nil =>
    simp only [find?] at found
    split at found
    next empty => simp [empty]
    next => cases found
  | cons b rest ih =>
    simp only [find?] at found
    split at found
    next fits =>
      cases found
      exact List.isPrefixOf_iff_prefix.mp fits
    next =>
      obtain ⟨m, later, rfl⟩ := Option.map_eq_some_iff.mp found
      simpa using ih later

theorem Bytes.prefix_take_iff {needle text more : Bytes} {n : Nat} (long : needle.length ≤ n)
    (inside : n ≤ text.length) : needle.isPrefixOf (text.take n ++ more) = needle.isPrefixOf text := by
  rw [Bool.eq_iff_iff, List.isPrefixOf_iff_prefix, List.isPrefixOf_iff_prefix,
    List.prefix_iff_eq_take, List.prefix_iff_eq_take]
  rw [List.take_append_of_le_length (by rw [List.length_take]; omega), List.take_take,
    Nat.min_eq_left long]

theorem Bytes.find?_take {needle text : Bytes} (found : Bytes.find? needle text = some n)
    (more : Bytes) : Bytes.find? needle (text.take (n + needle.length) ++ more) = some n := by
  induction text generalizing n with
  | nil =>
    simp only [find?] at found
    split at found
    next empty => cases found; subst empty; cases more <;> simp [find?]
    next => cases found
  | cons b rest ih =>
    have bound := find?_le found
    simp only [find?] at found
    split at found
    next fits =>
      cases found
      obtain ⟨after, rest_eq⟩ := List.isPrefixOf_iff_prefix.mp fits
      rw [Nat.zero_add, ← rest_eq, List.take_left]
      cases needle with
      | nil => cases more <;> simp [find?]
      | cons c needle => simp [find?]
    next misfits =>
      obtain ⟨m, later, rfl⟩ := Option.map_eq_some_iff.mp found
      have shift : m + 1 + needle.length = (m + needle.length) + 1 := by omega
      have same := @prefix_take_iff needle (b :: rest) more (m + 1 + needle.length) (by omega) bound
      rw [shift, List.take_succ_cons, List.cons_append] at same ⊢
      rw [find?, if_neg (by rw [same]; exact misfits), ih later]
      rfl

namespace Lexeme

theorem lineCommentLength_le : (text : Bytes) → lineCommentLength text ≤ text.length
  | [] => Nat.le_refl 0
  | [b] => by unfold lineCommentLength; split <;> simp
  | b :: c :: rest => by
    have first := lineCommentLength_le rest
    have second := lineCommentLength_le (c :: rest)
    unfold lineCommentLength
    simp only [List.length_cons] at second ⊢
    split
    · omega
    split <;> omega

/-- A line comment ends at the end of the text or in front of a newline. -/
theorem newline_of_lineComment : (text : Bytes) → (b : Byte) → (rest : Bytes) →
    text.drop (lineCommentLength text) = b :: rest → b = Byte.newline
  | [], b, rest, ended => by cases ended
  | [c], b, rest, ended => by
    unfold lineCommentLength at ended
    split at ended
    next newline => cases ended; exact newline
    next => cases ended
  | c :: d :: text, b, rest, ended => by
    unfold lineCommentLength at ended
    split at ended
    next newline => cases ended; exact newline
    split at ended
    · exact newline_of_lineComment text b rest (by simpa using ended)
    · exact newline_of_lineComment (d :: text) b rest (by simpa using ended)

theorem no_backslash_of_lineComment : (comment rest : Bytes) →
    lineCommentLength (comment ++ Byte.newline :: rest) = comment.length →
    comment.getLast? ≠ some Byte.backslash
  | [], _, _ => by simp
  | [b], rest, length => by
    rintro last
    obtain rfl : b = Byte.backslash := by simpa using last
    have plain : Byte.backslash ≠ Byte.newline := by decide
    simp [lineCommentLength, plain] at length
  | b :: c :: comment, rest, length => by
    simp only [List.cons_append, lineCommentLength] at length
    split at length
    · simp at length
    split at length
    next pair =>
      have later := no_backslash_of_lineComment comment rest (by simpa using length)
      cases comment with
      | nil => exact fun same => absurd (pair.2.symm.trans (Option.some.inj same)) (by decide)
      | cons d comment => simpa [List.getLast?_cons_cons] using later
    next =>
      have later := no_backslash_of_lineComment (c :: comment) rest (by simpa using length)
      simpa [List.getLast?_cons_cons] using later

theorem lineCommentLength_newline : (comment rest more : Bytes) →
    comment.length ≤ lineCommentLength (comment ++ rest) →
    comment.getLast? ≠ some Byte.backslash →
    lineCommentLength (comment ++ Byte.newline :: more) = comment.length
  | [], _, more, _, _ => by cases more <;> simp [lineCommentLength]
  | [b], rest, more, long, last => by
    have solid : b ≠ Byte.newline := by
      rintro rfl
      cases rest <;> simp [lineCommentLength] at long
    have plain : b ≠ Byte.backslash := by simpa using last
    cases more <;> simp [lineCommentLength, solid, plain]
  | b :: c :: comment, rest, more, long, last => by
    simp only [List.cons_append, lineCommentLength, List.length_cons] at long ⊢
    split at long
    · omega
    next solid =>
    rw [if_neg solid]
    split at long
    next pair =>
      rw [if_pos pair, lineCommentLength_newline comment rest more (by omega)]
      cases comment with
      | nil => simp
      | cons d comment => simpa [List.getLast?_cons_cons] using last
    next single =>
      have later := lineCommentLength_newline (c :: comment) rest more
        (by simp only [List.cons_append, List.length_cons]; omega)
        (by simpa [List.getLast?_cons_cons] using last)
      rw [if_neg single]
      simpa using later

theorem lineCommentLength_of_line : (text : Bytes) → Byte.newline ∉ text →
    lineCommentLength text = text.length
  | [], _ => rfl
  | [b], line => by
    have solid : b ≠ Byte.newline := fun same => line (by simp [same])
    simp [lineCommentLength, solid]
  | b :: c :: rest, line => by
    simp only [List.mem_cons, not_or] at line
    have later := lineCommentLength_of_line (c :: rest) (by simp [line.2])
    have solid : b ≠ Byte.newline := fun same => line.1 same.symm
    have next : c ≠ Byte.newline := fun same => line.2.1 same.symm
    simp [lineCommentLength, solid, next, later]

theorem blockCommentLength?_spec : (text : Bytes) → (n : Nat) → blockCommentLength? text = some n →
    2 ≤ n ∧ n ≤ text.length ∧ text[n - 1]? = some Byte.slash ∧
      ∀ more, blockCommentLength? (text.take n ++ more) = some n
  | [], n, found => by cases found
  | [_], n, found => by cases found
  | b :: c :: rest, n, found => by
    simp only [blockCommentLength?] at found
    split at found
    next closes =>
      cases found
      simp [closes, blockCommentLength?]
    next opens =>
      obtain ⟨m, later, rfl⟩ := Option.map_eq_some_iff.mp found
      obtain ⟨two, inside, last, stable⟩ := blockCommentLength?_spec (c :: rest) m later
      refine ⟨by omega, by simpa using inside, ?_, fun more => ?_⟩
      · have shift : m + 1 - 1 = m - 1 + 1 := by omega
        rw [shift, List.getElem?_cons_succ, last]
      · obtain ⟨k, rfl⟩ : ∃ k, m = k + 1 := ⟨m - 1, by omega⟩
        have again := stable more
        simp only [List.take_succ_cons, List.cons_append] at again ⊢
        simp [blockCommentLength?, opens, again]

theorem quotedLength?_spec {quote : Byte} (plain : quote ≠ Byte.backslash) : (text : Bytes) →
    (n : Nat) → quotedLength? quote text = some n →
    1 ≤ n ∧ n ≤ text.length ∧ text[n - 1]? = some quote ∧
      ∀ more, quotedLength? quote (text.take n ++ more) = some n
  | [], n, found => by cases found
  | [b], n, found => by
    simp only [quotedLength?] at found
    split at found
    next closes =>
      cases found
      refine ⟨by simp, by simp, by simp [closes], fun more => ?_⟩
      cases more <;> simp [quotedLength?, closes, plain]
    next => cases found
  | b :: c :: rest, n, found => by
    simp only [quotedLength?] at found
    split at found
    next escape =>
      obtain ⟨m, later, rfl⟩ := Option.map_eq_some_iff.mp found
      obtain ⟨one, inside, last, stable⟩ := quotedLength?_spec plain rest m later
      refine ⟨by omega, by simpa using inside, ?_, fun more => ?_⟩
      · have shift : m + 2 - 1 = m - 1 + 1 + 1 := by omega
        rw [shift, List.getElem?_cons_succ, List.getElem?_cons_succ, last]
      · simp [quotedLength?, escape, stable more]
    next =>
    split at found
    next closes =>
      cases found
      refine ⟨by simp, by simp, by simp [closes], fun more => ?_⟩
      cases more <;> simp [quotedLength?, closes, plain]
    next single open_ =>
      obtain ⟨m, later, rfl⟩ := Option.map_eq_some_iff.mp found
      obtain ⟨one, inside, last, stable⟩ := quotedLength?_spec plain (c :: rest) m later
      refine ⟨by omega, by simpa using inside, ?_, fun more => ?_⟩
      · have shift : m + 1 - 1 = m - 1 + 1 := by omega
        rw [shift, List.getElem?_cons_succ, last]
      · obtain ⟨k, rfl⟩ : ∃ k, m = k + 1 := ⟨m - 1, by omega⟩
        have again := stable more
        simp only [List.take_succ_cons, List.cons_append] at again ⊢
        simp [quotedLength?, single, open_, again]

theorem of_guard {p : Prop} [Decidable p] {u : Unit} (passed : (guard p : Option Unit) = some u) : p := by
  unfold guard at passed
  split at passed
  · assumption
  · cases passed

/-- The delimiter of a raw string stands in front of the first parenthesis. -/
theorem takeWhile_window {delimiter : Bytes} (short : delimiter.length ≤ maxDelimiter)
    (plain : Byte.openParen ∉ delimiter) (rest : Bytes) :
    ((delimiter ++ Byte.openParen :: rest).take (maxDelimiter + 1)).takeWhile (· != Byte.openParen) =
      delimiter := by
  obtain ⟨k, room⟩ : ∃ k, maxDelimiter + 1 - delimiter.length = k + 1 :=
    ⟨maxDelimiter - delimiter.length, by omega⟩
  rw [List.take_append, room, List.take_succ_cons, List.take_of_length_le (by omega),
    List.takeWhile_append_of_pos]
  · simp
  · intro b member
    simp only [bne_iff_ne, ne_eq]
    rintro rfl
    exact plain member

theorem exists_delimiter {text : Bytes} {n : Nat}
    (opened : ((text.take n).takeWhile (· != Byte.openParen)).length < (text.take n).length) :
    ∃ rest, text = (text.take n).takeWhile (· != Byte.openParen) ++ Byte.openParen :: rest ∧
      ((text.take n).takeWhile (· != Byte.openParen)).length < n ∧
      Byte.openParen ∉ (text.take n).takeWhile (· != Byte.openParen) := by
  have parts := List.takeWhile_append_dropWhile (p := (· != Byte.openParen)) (l := text.take n)
  have bound : (text.take n).length ≤ n := List.length_take_le n text
  cases left : (text.take n).dropWhile (· != Byte.openParen) with
  | nil =>
    rw [left, List.append_nil] at parts
    rw [parts] at opened
    omega
  | cons b more =>
    obtain rfl : b = Byte.openParen := by
      have stops := List.head_dropWhile_not (p := (· != Byte.openParen)) (l := text.take n) (by simp [left])
      simpa [left] using stops
    refine ⟨more ++ text.drop n, ?_, by omega, fun member => ?_⟩
    · rw [← List.cons_append, ← left, ← List.append_assoc, parts, List.take_append_drop]
    · have other := List.all_eq_true.mp List.all_takeWhile _ member
      simp at other

/-- A raw string is opened by its prefix, its delimiter and a parenthesis. -/
theorem rawCloser?_eq_some {run text closer : Bytes} : rawCloser? run text = some closer ↔
    run.reverse ∈ rawPrefixes ∧ ∃ delimiter rest, text = delimiter ++ Byte.openParen :: rest ∧
      delimiter.length ≤ maxDelimiter ∧ Byte.openParen ∉ delimiter ∧
      delimiter.all isDelimiter = true ∧
      closer = Byte.closeParen :: delimiter ++ [Byte.doubleQuote] := by
  unfold rawCloser?
  constructor
  · intro found
    simp only [Option.bind_eq_bind, Option.bind_eq_some_iff] at found
    obtain ⟨_, known, _, opened, _, fits, same⟩ := found
    obtain ⟨rest, whole, short, plain⟩ := exists_delimiter (of_guard opened)
    exact ⟨of_guard known, _, rest, whole, Nat.le_of_lt_succ short, plain, of_guard fits,
      (Option.some.inj same).symm⟩
  · rintro ⟨known, delimiter, rest, rfl, short, plain, fits, rfl⟩
    have longer : delimiter.length <
        ((delimiter ++ Byte.openParen :: rest).take (maxDelimiter + 1)).length := by
      simp only [List.length_take, List.length_append, List.length_cons]
      omega
    simp only [takeWhile_window short plain rest, known, longer, fits, guard, if_true]
    rfl

theorem lt_of_find?_closer {delimiter rest : Bytes} (plain : delimiter.all isDelimiter = true)
    (found : Bytes.find? (Byte.closeParen :: delimiter ++ [Byte.doubleQuote])
      (delimiter ++ Byte.openParen :: rest) = some k) : delimiter.length < k := by
  by_contra small
  have fits := Bytes.find?_prefix found
  rw [List.cons_append, List.cons_prefix_iff] at fits
  obtain ⟨after, dropped, _⟩ := fits
  have here : (delimiter ++ Byte.openParen :: rest)[k]? = some Byte.closeParen := by
    have := congrArg List.head? dropped
    rwa [List.head?_drop] at this
  rcases Nat.lt_or_eq_of_le (Nat.le_of_not_lt small) with inside | rfl
  · rw [List.getElem?_append_left inside] at here
    have := List.all_eq_true.mp plain _ (List.mem_of_getElem? here)
    revert this
    decide
  · rw [List.getElem?_append_right (Nat.le_refl _), Nat.sub_self] at here
    exact absurd (Option.some.inj here) (by decide)

theorem rawCloser?_take {run text closer : Bytes} (opened : rawCloser? run text = some closer)
    (found : Bytes.find? closer text = some k) (more : Bytes) :
    rawCloser? run (text.take (k + closer.length) ++ more) = some closer := by
  obtain ⟨known, delimiter, rest, rfl, short, plain, fits, rfl⟩ := rawCloser?_eq_some.mp opened
  have far := lt_of_find?_closer fits found
  obtain ⟨m, reach⟩ : ∃ m, k + (Byte.closeParen :: delimiter ++ [Byte.doubleQuote]).length =
      delimiter.length + (m + 1) := ⟨k + (delimiter.length + 2) - delimiter.length - 1, by simp; omega⟩
  rw [rawCloser?_eq_some]
  refine ⟨known, delimiter, rest.take m ++ more, ?_, short, plain, fits, rfl⟩
  rw [reach, List.take_append, List.take_of_length_le (by omega), Nat.add_sub_cancel_left,
    List.take_succ_cons]
  simp

/-- A string that no prefix makes a raw one has its closing quote before any parenthesis that could. -/
theorem rawCloser?_none_take {run text : Bytes} (plain : rawCloser? run text = none)
    (last : text[n - 1]? = some Byte.doubleQuote) (positive : 1 ≤ n) (more : Bytes) :
    rawCloser? run (text.take n ++ more) = none := by
  by_contra opened
  obtain ⟨closer, opened⟩ := Option.ne_none_iff_exists'.mp opened
  obtain ⟨known, delimiter, rest, whole, short, noParen, fits, rfl⟩ := rawCloser?_eq_some.mp opened
  have bound := (List.getElem?_eq_some_iff.mp last).1
  have quote : (delimiter ++ Byte.openParen :: rest)[n - 1]? = some Byte.doubleQuote := by
    rw [← whole, List.getElem?_append_left (by rw [List.length_take]; omega), List.getElem?_take,
      if_pos (by omega), last]
  have before : delimiter.length + 1 ≤ n := by
    by_contra far
    rw [List.getElem?_append_left (by omega)] at quote
    have := List.all_eq_true.mp fits _ (List.mem_of_getElem? quote)
    revert this
    decide
  have again : text = delimiter ++ Byte.openParen :: (text.drop (delimiter.length + 1)) := by
    have right : (delimiter ++ Byte.openParen :: rest).take (delimiter.length + 1) =
        delimiter ++ [Byte.openParen] := by
      rw [List.take_append, List.take_of_length_le (Nat.le_succ delimiter.length)]
      simp
    have left : (text.take n ++ more).take (delimiter.length + 1) =
        text.take (delimiter.length + 1) := by
      rw [List.take_append_of_le_length (by rw [List.length_take]; omega), List.take_take,
        Nat.min_eq_left before]
    rw [whole, right] at left
    rw [← List.singleton_append, ← List.append_assoc, left, List.take_append_drop]
  have := rawCloser?_eq_some.mpr ⟨known, delimiter, _, again, short, noParen, fits, rfl⟩
  rw [plain] at this
  cases this

theorem take_eq_cons {text : Bytes} (positive : 1 ≤ n) (inside : n ≤ text.length) (more : Bytes) :
    (text.take n ++ more).head? = text.head? := by
  obtain ⟨m, rfl⟩ : ∃ m, n = m + 1 := ⟨n - 1, by omega⟩
  cases text with
  | nil => simp at inside
  | cons b rest => rfl

/-- What begins with the byte `b` in front of `text`, and how far it goes: the lexeme, or what has no end. -/
inductive Takes (run : Bytes) (b : Byte) (text : Bytes) : Except Opener (LexClass × Nat) → Prop
  | lineComment : b = Byte.slash → text.head? = some Byte.slash →
      Takes run b text (.ok (.lineComment, lineCommentLength (text.drop 1) + 1))
  | blockComment {n : Nat} : b = Byte.slash → text.head? = some Byte.star →
      blockCommentLength? (text.drop 1) = some n → Takes run b text (.ok (.blockComment, n + 1))
  | openComment : b = Byte.slash → text.head? = some Byte.star → blockCommentLength? (text.drop 1) = none →
      Takes run b text (.error .blockComment)
  | rawString {closer : Bytes} {n : Nat} : b = Byte.doubleQuote → rawCloser? run text = some closer →
      Bytes.find? closer text = some n → Takes run b text (.ok (.string, n + closer.length))
  | openRaw {closer : Bytes} : b = Byte.doubleQuote → rawCloser? run text = some closer →
      Bytes.find? closer text = none → Takes run b text (.error .rawString)
  | string {n : Nat} : b = Byte.doubleQuote → rawCloser? run text = none →
      quotedLength? Byte.doubleQuote text = some n → Takes run b text (.ok (.string, n))
  | openString : b = Byte.doubleQuote → rawCloser? run text = none →
      quotedLength? Byte.doubleQuote text = none → Takes run b text (.error .string)
  | char {n : Nat} : b = Byte.singleQuote → isDigitSeparator run = false →
      quotedLength? Byte.singleQuote text = some n → Takes run b text (.ok (.char, n))
  | openChar : b = Byte.singleQuote → isDigitSeparator run = false →
      quotedLength? Byte.singleQuote text = none → Takes run b text (.error .char)
  | single : (b = Byte.slash → text.head? ≠ some Byte.slash ∧ text.head? ≠ some Byte.star) →
      b ≠ Byte.doubleQuote → (b = Byte.singleQuote → isDigitSeparator run = true) →
      Takes run b text (.ok (.code, 0))

theorem takes_extent (run : Bytes) (b : Byte) (text : Bytes) : Takes run b text (extent run b text) := by
  unfold extent
  split
  next line => exact .lineComment line.1 line.2
  next noLine =>
  split
  next block =>
    split
    next found => exact .blockComment block.1 block.2 found
    next none => exact .openComment block.1 block.2 none
  next noBlock =>
  split
  next string =>
    split
    next opened =>
      split
      next found => exact .rawString string opened found
      next none => exact .openRaw string opened none
    next plain =>
      split
      next found => exact .string string plain found
      next none => exact .openString string plain none
  next noString =>
  split
  next char =>
    split
    next found => exact .char char.1 char.2 found
    next none => exact .openChar char.1 char.2 none
  next noChar =>
    refine .single (fun slash => ⟨fun head => noLine ⟨slash, head⟩, fun head => noBlock ⟨slash, head⟩⟩)
      noString fun quote => ?_
    by_contra other
    exact noChar ⟨quote, by simpa using other⟩

theorem extent_slash_star (run text : Bytes) : extent run Byte.slash (Byte.star :: text) =
    match blockCommentLength? text with
    | some n => .ok (.blockComment, n + 1)
    | none => .error .blockComment := by
  rw [extent, if_neg fun both => absurd (Option.some.inj both.2) (by decide), if_pos ⟨rfl, rfl⟩]
  rfl

theorem extent_doubleQuote (run text : Bytes) : extent run Byte.doubleQuote text =
    match rawCloser? run text with
    | some closer =>
      match Bytes.find? closer text with
      | some n => .ok (.string, n + closer.length)
      | none => .error .rawString
    | none =>
      match quotedLength? Byte.doubleQuote text with
      | some n => .ok (.string, n)
      | none => .error .string := by
  have solid : Byte.doubleQuote ≠ Byte.slash := by decide
  have noComment {c : Byte} : ¬(Byte.doubleQuote = Byte.slash ∧ text.head? = some c) :=
    fun both => solid both.1
  exact (if_neg noComment).trans ((if_neg noComment).trans (if_pos rfl))

theorem extent_singleQuote {run : Bytes} (apart : isDigitSeparator run = false) (text : Bytes) :
    extent run Byte.singleQuote text =
      match quotedLength? Byte.singleQuote text with
      | some n => .ok (.char, n)
      | none => .error .char := by
  have solid : Byte.singleQuote ≠ Byte.slash := by decide
  have noComment {c : Byte} : ¬(Byte.singleQuote = Byte.slash ∧ text.head? = some c) :=
    fun both => solid both.1
  have noString : Byte.singleQuote ≠ Byte.doubleQuote := by decide
  exact (if_neg noComment).trans
    ((if_neg noComment).trans ((if_neg noString).trans (if_pos ⟨rfl, apart⟩)))

/-- At most one lexeme begins in a place. -/
theorem extent_eq_iff {run text : Bytes} {b : Byte} {r : Except Opener (LexClass × Nat)} :
    extent run b text = r ↔ Takes run b text r := by
  constructor
  · rintro rfl
    exact takes_extent run b text
  · intro takes
    cases takes with
    | lineComment slash head => rw [extent, if_pos ⟨slash, head⟩]
    | blockComment slash head found =>
      obtain ⟨rest, rfl⟩ := List.head?_eq_some_iff.mp head
      rw [List.drop_one, List.tail_cons] at found
      simp only [slash, extent_slash_star, found]
    | openComment slash head none =>
      obtain ⟨rest, rfl⟩ := List.head?_eq_some_iff.mp head
      rw [List.drop_one, List.tail_cons] at none
      simp only [slash, extent_slash_star, none]
    | rawString quote opened found => simp only [quote, extent_doubleQuote, opened, found]
    | openRaw quote opened none => simp only [quote, extent_doubleQuote, opened, none]
    | string quote plain found => simp only [quote, extent_doubleQuote, plain, found]
    | openString quote plain none => simp only [quote, extent_doubleQuote, plain, none]
    | char quote apart found => simp only [quote, extent_singleQuote apart, found]
    | openChar quote apart none => simp only [quote, extent_singleQuote apart, none]
    | single noComment noString separator =>
      have noChar : ¬(b = Byte.singleQuote ∧ isDigitSeparator run = false) := by
        rintro ⟨quote, plain⟩
        rw [separator quote] at plain
        cases plain
      rw [extent, if_neg fun both => (noComment both.1).1 both.2, if_neg fun both => (noComment both.1).2 both.2,
        if_neg noString, if_neg noChar]

/-- A literal or a block comment takes its closing delimiter along, and does not depend on what
follows it. -/
theorem extent_closed {run text : Bytes} {b : Byte} {cls : LexClass}
    (taken : extent run b text = .ok (cls, n)) (notCode : cls ≠ .code)
    (notLine : cls ≠ .lineComment) :
    1 ≤ n ∧ n ≤ text.length ∧
      (∃ q, text[n - 1]? = some q ∧ q ∈ [Byte.slash, Byte.doubleQuote, Byte.singleQuote]) ∧
      ∀ more, extent run b (text.take n ++ more) = .ok (cls, n) := by
  have same_head := fun positive inside more => @take_eq_cons n text positive inside more
  cases extent_eq_iff.mp taken with
  | lineComment => exact absurd rfl notLine
  | @blockComment k slash head found =>
    obtain ⟨two, inside, last, stable⟩ := blockCommentLength?_spec _ _ found
    rw [List.length_drop] at inside
    rw [List.getElem?_drop, show 1 + (k - 1) = k + 1 - 1 by omega] at last
    refine ⟨by omega, by omega, ⟨Byte.slash, last, by simp⟩, fun more => ?_⟩
    have rest : (text.take (k + 1) ++ more).drop 1 = (text.drop 1).take k ++ more := by
      rw [List.drop_append_of_le_length (by rw [List.length_take]; omega), List.drop_take,
        Nat.add_sub_cancel]
    exact extent_eq_iff.mpr (.blockComment slash (by rw [same_head (by omega) (by omega), head])
      (by rw [rest, stable more]))
  | @rawString closer k quote opened found =>
    have bound := Bytes.find?_le found
    obtain ⟨_, delimiter, _, _, _, _, _, made⟩ := rawCloser?_eq_some.mp opened
    have long : 2 ≤ closer.length := by simp [made]
    refine ⟨by omega, bound, ⟨Byte.doubleQuote, ?_, by simp⟩, fun more => extent_eq_iff.mpr
      (.rawString quote (rawCloser?_take opened found more) (Bytes.find?_take found more))⟩
    obtain ⟨after, ended⟩ := Bytes.find?_prefix found
    rw [show k + closer.length - 1 = k + (closer.length - 1) by omega, ← List.getElem?_drop, ← ended,
      List.getElem?_append_left (by omega), made]
    simp
  | string quote plain found =>
    obtain ⟨one, inside, last, stable⟩ := quotedLength?_spec (by decide) _ _ found
    exact ⟨one, inside, ⟨_, last, by simp⟩, fun more => extent_eq_iff.mpr
      (.string quote (rawCloser?_none_take plain last one more) (stable more))⟩
  | char quote apart found =>
    obtain ⟨one, inside, last, stable⟩ := quotedLength?_spec (by decide) _ _ found
    exact ⟨one, inside, ⟨_, last, by simp⟩, fun more => extent_eq_iff.mpr (.char quote apart (stable more))⟩
  | single => exact absurd rfl notCode

theorem extent_code_iff {run text : Bytes} {b : Byte} :
    extent run b text = .ok (.code, n) ↔
      n = 0 ∧ (b = Byte.slash → text.head? ≠ some Byte.slash ∧ text.head? ≠ some Byte.star) ∧
        b ≠ Byte.doubleQuote ∧ (b = Byte.singleQuote → isDigitSeparator run = true) := by
  rw [extent_eq_iff]
  constructor
  · intro takes
    cases takes with
    | single noComment noString separator => exact ⟨rfl, noComment, noString, separator⟩
  · rintro ⟨rfl, noComment, noString, separator⟩
    exact .single noComment noString separator

theorem extent_line_iff {run text : Bytes} {b : Byte} :
    extent run b text = .ok (.lineComment, n) ↔
      b = Byte.slash ∧ text.head? = some Byte.slash ∧ n = lineCommentLength (text.drop 1) + 1 := by
  rw [extent_eq_iff]
  constructor
  · intro takes
    cases takes with
    | lineComment slash head => exact ⟨slash, head, rfl⟩
  · rintro ⟨slash, head, rfl⟩
    exact .lineComment slash head

/-- A line comment that is cut off by a newline, with no backslash in front, is still one. -/
theorem extent_line_newline {run body after : Bytes} {b : Byte}
    (taken : extent run b (body ++ after) = .ok (.lineComment, n)) (some_body : body ≠ [])
    (long : body.length ≤ n) (last : body.getLast? ≠ some Byte.backslash) (more : Bytes) :
    extent run b (body ++ Byte.newline :: more) = .ok (.lineComment, body.length) := by
  obtain ⟨slash, head, length⟩ := extent_line_iff.mp taken
  obtain ⟨c, comment, rfl⟩ := List.exists_cons_of_ne_nil some_body
  simp only [List.cons_append, List.head?_cons, List.drop_one, List.tail_cons,
    List.length_cons] at head length long
  have plain : comment.getLast? ≠ some Byte.backslash := by
    cases comment with
    | nil => simp
    | cons d comment => simpa [List.getLast?_cons_cons] using last
  apply extent_line_iff.mpr
  refine ⟨slash, head, ?_⟩
  rw [List.cons_append, List.drop_one, List.tail_cons,
    lineCommentLength_newline comment after more (by omega) plain, List.length_cons]

/-- A line comment that something follows does not depend on what stands behind the newline. -/
theorem extent_line_retail {run body after : Bytes} {b c : Byte}
    (taken : extent run b (body ++ c :: after) = .ok (.lineComment, body.length)) (more : Bytes) :
    c = Byte.newline ∧ extent run b (body ++ c :: more) = .ok (.lineComment, body.length) := by
  obtain ⟨slash, head, length⟩ := extent_line_iff.mp taken
  cases body with
  | nil => simp at length
  | cons d comment =>
    simp only [List.cons_append, List.drop_one, List.tail_cons, List.length_cons] at length
    have whole : lineCommentLength (comment ++ c :: after) = comment.length := by omega
    obtain rfl : c = Byte.newline := by
      apply newline_of_lineComment (comment ++ c :: after) c after
      rw [whole, List.drop_left]
    refine ⟨rfl, extent_line_newline taken (by simp) (Nat.le_refl _) ?_ more⟩
    have plain := no_backslash_of_lineComment comment after whole
    cases comment with
    | nil =>
      obtain rfl : d = Byte.slash := by simpa using head
      decide
    | cons e comment => simpa [List.getLast?_cons_cons] using plain

/-- A lexeme that is no line comment does not depend on what follows it, but for a slash. -/
theorem extent_retail {run body after more : Bytes} {b : Byte} {cls : LexClass}
    (taken : extent run b (body ++ after) = .ok (cls, body.length)) (noLine : cls ≠ .lineComment)
    (slash : cls = .code → b = Byte.slash →
      more.head? ≠ some Byte.slash ∧ more.head? ≠ some Byte.star) :
    extent run b (body ++ more) = .ok (cls, body.length) := by
  by_cases code : cls = .code
  · subst code
    obtain ⟨none, _, noString, separator⟩ := extent_code_iff.mp taken
    obtain rfl := List.eq_nil_of_length_eq_zero none
    exact extent_code_iff.mpr ⟨rfl, slash rfl, noString, separator⟩
  · simpa using (extent_closed taken code noLine).2.2.2 more

/-- A run that neither opens a raw string nor begins a number: a quote after it is an ordinary one. -/
def Plain (run : Bytes) : Prop := run.reverse ∉ rawPrefixes ∧ isDigitSeparator run = false

theorem plain_nil : Plain [] := ⟨by decide, rfl⟩

theorem extent_of_plain {run : Bytes} (plain : Plain run) (b : Byte) (text : Bytes) :
    extent run b text = extent [] b text := by
  have ordinary {run : Bytes} (plain : Plain run) : rawCloser? run text = none := by
    rw [rawCloser?, guard, if_neg plain.1]
    rfl
  simp only [extent, ordinary plain, ordinary plain_nil, plain.2, plain_nil.2]

/-- Only quotes depend on what stands in front of them. -/
theorem extent_of_solid {b : Byte} (noString : b ≠ Byte.doubleQuote) (noChar : b ≠ Byte.singleQuote)
    (run run' text : Bytes) : extent run b text = extent run' b text := by
  simp [extent, noString, noChar]

theorem extent_le {run text : Bytes} {b : Byte} {cls : LexClass}
    (taken : extent run b text = .ok (cls, n)) : n ≤ text.length := by
  by_cases code : cls = .code
  · subst code
    have := (extent_code_iff.mp taken).1
    omega
  · by_cases line : cls = .lineComment
    · subst line
      obtain ⟨_, head, rfl⟩ := extent_line_iff.mp taken
      have := lineCommentLength_le (text.drop 1)
      rw [List.length_drop] at this
      cases text with
      | nil => cases head
      | cons b rest => simp only [List.length_cons] at this ⊢; omega
    · exact (extent_closed taken code line).2.1

end Lexeme
end OutOfLine
