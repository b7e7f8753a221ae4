import Mathlib.Data.List.DropRight
import Mathlib.Data.Nat.Find
import OutOfLine.Proofs.Scan.Reading

/-! The lexical grammar, apart from the scanner: how lexemes begin and end, and how a text splits
into them. The scanner takes a lexeme exactly as far as the grammar lets it go. -/

namespace OutOfLine

namespace Grammar

/-- The whole identifier run that a text ends with. -/
def lastRun (before : Bytes) : Bytes := before.rtakeWhile Byte.isIdent

/-- Whether a text ends inside a number: a quote may separate its digits there. -/
def InNumber (before : Bytes) : Prop := ∃ b, (lastRun before).head? = some b ∧ Byte.isDigit b = true

inductive Form where
  | lineComment
  | blockComment
  | rawString (delimiter : Bytes)
  | string
  | char
  | single

namespace Form

def cls : Form → LexClass
  | lineComment => .lineComment
  | blockComment => .blockComment
  | rawString _ => .string
  | string => .string
  | char => .char
  | single => .code

/-- What a lexeme is reported as when it has no end. A line comment and a byte of code always end. -/
def opener? : Form → Option Opener
  | lineComment => none
  | blockComment => some .blockComment
  | rawString _ => some .rawString
  | string => some .string
  | char => some .char
  | single => none

def rawCloser (delimiter : Bytes) : Bytes := Byte.closeParen :: delimiter ++ [Byte.doubleQuote]

end Form

/-- A delimiter of a raw string: at most 16 bytes, none of them a blank, a backslash, a parenthesis or
a double quote. -/
structure IsDelimiter (delimiter : Bytes) : Prop where
  short : delimiter.length ≤ 16
  plain : ∀ b ∈ delimiter, Byte.isBlank b = false ∧
    b ∉ [Byte.backslash, Byte.openParen, Byte.closeParen, Byte.doubleQuote]

inductive Opens (before : Bytes) : Form → Bytes → Prop
  | lineComment : Opens before .lineComment [Byte.slash, Byte.slash]
  | blockComment : Opens before .blockComment [Byte.slash, Byte.star]
  | rawString {delimiter : Bytes} :
      lastRun before ∈ [utf8 "R", utf8 "u8R", utf8 "uR", utf8 "UR", utf8 "LR"] →
      IsDelimiter delimiter →
      Opens before (.rawString delimiter) (Byte.doubleQuote :: delimiter ++ [Byte.openParen])
  | string : Opens before .string [Byte.doubleQuote]
  | char : ¬InNumber before → Opens before .char [Byte.singleQuote]
  | single {b : Byte} : b ≠ Byte.doubleQuote → (b = Byte.singleQuote → InNumber before) →
      Opens before .single [b]

/-- A text begins with a lexeme of some form: of the openers that fit, this one is the longest. -/
structure Begins (before : Bytes) (form : Form) (opener text : Bytes) : Prop where
  opens : Opens before form opener
  fits : opener <+: text
  longest : ∀ other shorter, Opens before other shorter → shorter <+: text →
    shorter.length ≤ opener.length

/-- A piece of a line comment: a newline stands in it only as a pair with the backslash before it. -/
inductive Continued : Bytes → Prop
  | nil : Continued []
  | pair {body : Bytes} : Continued body → Continued (Byte.backslash :: Byte.newline :: body)
  | byte {b : Byte} {body : Bytes} : b ≠ Byte.newline → Continued body → Continued (b :: body)

/-- The inside of a literal: backslashes in pairs with the byte behind them, and no other `quote`. -/
inductive Quoted (quote : Byte) : Bytes → Prop
  | nil : Quoted quote []
  | pair {b : Byte} {body : Bytes} : Quoted quote body → Quoted quote (Byte.backslash :: b :: body)
  | byte {b : Byte} {body : Bytes} : b ≠ Byte.backslash → b ≠ quote → Quoted quote body →
      Quoted quote (b :: body)

def FirstBehind (closer body : Bytes) : Prop := ∀ n, closer <+: (body ++ closer).drop n → body.length ≤ n

/-- A lexeme goes on behind its opener with `tail` and ends there, in front of `rest`. -/
inductive Closes : Form → (tail rest : Bytes) → Prop
  | lineComment {tail rest : Bytes} : Continued tail →
      (∀ b ∈ rest.head?, b = Byte.newline ∧ tail.getLast? ≠ some Byte.backslash) →
      Closes .lineComment tail rest
  | blockComment {body rest : Bytes} : FirstBehind [Byte.star, Byte.slash] body →
      Closes .blockComment (body ++ [Byte.star, Byte.slash]) rest
  | rawString {delimiter body rest : Bytes} : FirstBehind (Form.rawCloser delimiter) body →
      Closes (.rawString delimiter) (body ++ Form.rawCloser delimiter) rest
  | string {body rest : Bytes} : Quoted Byte.doubleQuote body →
      Closes .string (body ++ [Byte.doubleQuote]) rest
  | char {body rest : Bytes} : Quoted Byte.singleQuote body →
      Closes .char (body ++ [Byte.singleQuote]) rest
  | single {rest : Bytes} : Closes .single [] rest

def IsLexeme (before : Bytes) (cls : LexClass) (lexeme rest : Bytes) : Prop :=
  ∃ form opener tail, form.cls = cls ∧ lexeme = opener ++ tail ∧
    Begins before form opener (lexeme ++ rest) ∧ Closes form tail rest

def Unended (before : Bytes) (opener : Opener) (text : Bytes) : Prop :=
  ∃ form start, form.opener? = some opener ∧ Begins before form start text ∧
    ∀ tail rest, text = start ++ (tail ++ rest) → ¬Closes form tail rest

abbrev Lexemes := List (LexClass × Bytes)

namespace Lexemes

def bytes (lexemes : Lexemes) : Bytes := lexemes.flatMap Prod.snd

def cells (lexemes : Lexemes) : List Cell := lexemes.flatMap fun l => Cell.uniform l.1 l.2

@[simp] theorem bytes_nil : bytes [] = [] := rfl

@[simp] theorem bytes_cons (l : LexClass × Bytes) (lexemes : Lexemes) :
    bytes (l :: lexemes) = l.2 ++ bytes lexemes := rfl

@[simp] theorem cells_nil : cells [] = [] := rfl

@[simp] theorem cells_cons (l : LexClass × Bytes) (lexemes : Lexemes) :
    cells (l :: lexemes) = Cell.uniform l.1 l.2 ++ cells lexemes := rfl

@[simp] theorem bytes_cells (lexemes : Lexemes) : Cell.bytes (cells lexemes) = bytes lexemes := by
  induction lexemes with
  | nil => rfl
  | cons l lexemes ih => simp [ih]

end Lexemes

/-- The text behind `before` splits into `lexemes` from the left, and `rest` is left over. -/
inductive Splits : (before : Bytes) → (lexemes : Lexemes) → (rest : Bytes) → Prop
  | nil {before rest : Bytes} : Splits before [] rest
  | cons {before lexeme rest : Bytes} {cls : LexClass} {lexemes : Lexemes} :
      IsLexeme before cls lexeme (lexemes.bytes ++ rest) →
      Splits (before ++ lexeme) lexemes rest → Splits before ((cls, lexeme) :: lexemes) rest

theorem Opens.one_le {before opener : Bytes} {form : Form} (opens : Opens before form opener) :
    1 ≤ opener.length := by
  cases opens <;> simp

theorem exists_begins (before : Bytes) (b : Byte) (text : Bytes) :
    ∃ form opener, Begins before form opener (b :: text) := by
  classical
  let length (n : Nat) : Prop :=
    ∃ form opener, Opens before form opener ∧ opener <+: b :: text ∧ opener.length = n
  have some_length : length 1 := by
    have starts : [b] <+: b :: text := ⟨text, rfl⟩
    by_cases string : b = Byte.doubleQuote
    · exact ⟨_, _, .string, string ▸ starts, rfl⟩
    by_cases char : b = Byte.singleQuote ∧ ¬InNumber before
    · exact ⟨_, _, .char char.2, char.1 ▸ starts, rfl⟩
    · have inside (quote : b = Byte.singleQuote) : InNumber before :=
        by_contra fun outside => char ⟨quote, outside⟩
      exact ⟨_, _, .single string inside, starts, rfl⟩
  have bounded : 1 ≤ (b :: text).length := Nat.succ_le_succ (Nat.zero_le _)
  obtain ⟨form, opener, opens, fits, greatest⟩ := Nat.findGreatest_spec bounded some_length
  refine ⟨form, opener, opens, fits, fun other shorter opens' fits' => ?_⟩
  rw [greatest]
  exact Nat.le_findGreatest fits'.length_le ⟨other, shorter, opens', fits', rfl⟩

end Grammar

theorem Bytes.prefix_append_iff {needle text : Bytes} (long : needle.length ≤ text.length) (more : Bytes) :
    needle <+: text ++ more ↔ needle <+: text := by
  refine ⟨fun fits => ?_, fun fits => fits.trans (List.prefix_append text more)⟩
  rw [List.prefix_iff_eq_take] at fits ⊢
  rwa [List.take_append_of_le_length long] at fits

theorem Bytes.find?_eq_some_iff {needle text : Bytes} : Bytes.find? needle text = some n ↔
    n ≤ text.length ∧ needle <+: text.drop n ∧ ∀ m, needle <+: text.drop m → n ≤ m := by
  induction text generalizing n with
  | nil =>
    simp only [find?, List.drop_nil, List.prefix_nil, List.length_nil, Nat.le_zero]
    split
    next empty =>
      constructor
      · intro found
        cases found
        exact ⟨rfl, empty, fun _ _ => Nat.zero_le _⟩
      · intro here
        rw [here.1]
    next full =>
      constructor
      · intro found
        cases found
      · intro here
        exact absurd here.2.1 full
  | cons b text ih =>
    rw [find?]
    split
    next fits =>
      rw [List.isPrefixOf_iff_prefix] at fits
      constructor
      · intro found
        cases found
        exact ⟨Nat.zero_le _, fits, fun _ _ => Nat.zero_le _⟩
      · rintro ⟨_, _, least⟩
        obtain rfl := Nat.le_zero.mp (least 0 fits)
        rfl
    next misfits =>
      rw [List.isPrefixOf_iff_prefix] at misfits
      rw [Option.map_eq_some_iff]
      constructor
      · rintro ⟨n, found, rfl⟩
        obtain ⟨inside, fits, least⟩ := ih.mp found
        refine ⟨Nat.succ_le_succ inside, fits, fun m there => ?_⟩
        cases m with
        | zero => exact absurd there misfits
        | succ m => exact Nat.succ_le_succ (least m there)
      · rintro ⟨inside, fits, least⟩
        cases n with
        | zero => exact absurd fits misfits
        | succ n =>
          exact ⟨n, ih.mpr ⟨Nat.le_of_succ_le_succ inside, fits,
            fun m there => Nat.le_of_succ_le_succ (least (m + 1) there)⟩, rfl⟩

theorem Bytes.find?_append {c : Byte} {front : Bytes} (apart : c ∉ front) (needle text : Bytes) :
    Bytes.find? (c :: needle) (front ++ text) =
      (Bytes.find? (c :: needle) text).map (· + front.length) := by
  induction front with
  | nil => simp
  | cons b front ih =>
    rw [List.mem_cons, not_or] at apart
    have misfits : (c :: needle).isPrefixOf (b :: front ++ text) = false := by
      rw [List.cons_append, List.isPrefixOf, beq_eq_false_iff_ne.mpr apart.1, Bool.false_and]
    rw [List.cons_append] at misfits ⊢
    rw [find?, misfits, ih apart.2, Option.map_map]
    rfl

namespace Grammar

/-- The grammar's first closer is what a search finds. -/
theorem firstBehind_iff {closer body : Bytes} (rest : Bytes) :
    FirstBehind closer body ↔ Bytes.find? closer (body ++ (closer ++ rest)) = some body.length := by
  rw [Bytes.find?_eq_some_iff, List.drop_left, List.length_append]
  have early {m : Nat} (before : m < body.length) : closer <+: (body ++ (closer ++ rest)).drop m ↔
      closer <+: (body ++ closer).drop m := by
    rw [← List.append_assoc, List.drop_append_of_le_length (by rw [List.length_append]; omega)]
    exact Bytes.prefix_append_iff (by rw [List.length_drop, List.length_append]; omega) rest
  constructor
  · refine fun first => ⟨Nat.le_add_right _ _, List.prefix_append _ _, fun m there => ?_⟩
    by_contra before
    exact before (first m ((early (by omega)).mp there))
  · rintro ⟨_, _, least⟩ m there
    by_contra before
    exact before (least m ((early (by omega)).mpr there))

theorem reach_closer {closer tail rest : Bytes} :
    (∃ body, tail = body ++ closer ∧ FirstBehind closer body) ↔
      (Bytes.find? closer (tail ++ rest)).map (· + closer.length) = some tail.length := by
  constructor
  · rintro ⟨body, rfl, first⟩
    rw [List.append_assoc, (firstBehind_iff rest).mp first]
    simp
  · intro found
    obtain ⟨n, found, length⟩ := Option.map_eq_some_iff.mp found
    obtain ⟨more, fits⟩ := Bytes.find?_prefix found
    have bound := Bytes.find?_le found
    have whole : tail ++ rest = (tail ++ rest).take n ++ (closer ++ more) := by
      rw [fits, List.take_append_drop]
    have short : ((tail ++ rest).take n).length = n := List.length_take_of_le (by omega)
    obtain ⟨tail_eq, _⟩ : tail = (tail ++ rest).take n ++ closer ∧ rest = more := by
      apply List.append_inj
      · rw [List.append_assoc]
        exact whole
      · rw [List.length_append, short, length]
    refine ⟨_, tail_eq, (firstBehind_iff more).mpr ?_⟩
    rw [← whole, short, found]

/-- A newline ends a line comment, unless it is part of a pair. -/
theorem reach_line {tail rest : Bytes} (continued : Continued tail)
    (ends : ∀ b ∈ rest.head?, b = Byte.newline ∧ tail.getLast? ≠ some Byte.backslash) :
    Lexeme.lineCommentLength (tail ++ rest) = tail.length := by
  induction continued with
  | nil =>
    cases rest with
    | nil => rfl
    | cons b rest =>
      obtain rfl := (ends b rfl).1
      cases rest <;> rfl
  | @pair body _ ih =>
    have later := ih fun b first => ⟨(ends b first).1, fun last => (ends b first).2 (by
      cases body with
      | nil => cases last
      | cons c body => simpa [List.getLast?_cons_cons] using last)⟩
    rw [List.cons_append, List.cons_append, Lexeme.lineCommentLength, if_neg (by decide),
      if_pos ⟨rfl, rfl⟩, later]
    rfl
  | @byte b body solid continued ih =>
    have later := ih fun c first => ⟨(ends c first).1, fun last => (ends c first).2 (by
      cases body with
      | nil => cases last
      | cons d body => simpa [List.getLast?_cons_cons] using last)⟩
    have unpaired : ∀ c more, body ++ rest = c :: more → ¬(b = Byte.backslash ∧ c = Byte.newline) := by
      rintro c more follows ⟨rfl, rfl⟩
      cases continued with
      | nil => exact (ends Byte.newline (by rw [← List.nil_append rest, follows]; rfl)).2 rfl
      | pair => cases follows
      | byte other => exact other (List.cons.inj follows).1
    rw [List.cons_append]
    cases follows : body ++ rest with
    | nil =>
      obtain ⟨rfl, _⟩ := List.append_eq_nil_iff.mp follows
      simp [Lexeme.lineCommentLength, solid]
    | cons c more =>
      rw [Lexeme.lineCommentLength, if_neg solid, if_neg (unpaired c more follows), ← follows, later]
      rfl

theorem continued_take : (text : Bytes) → Continued (text.take (Lexeme.lineCommentLength text))
  | [] => .nil
  | [b] => by
    unfold Lexeme.lineCommentLength
    split
    next => exact .nil
    next solid => exact .byte solid .nil
  | b :: c :: text => by
    unfold Lexeme.lineCommentLength
    split
    next => exact .nil
    next solid =>
    split
    next pair =>
      obtain ⟨rfl, rfl⟩ := pair
      exact .pair (continued_take text)
    next => exact .byte solid (continued_take (c :: text))

theorem closes_lineComment_iff {tail rest : Bytes} :
    Closes .lineComment tail rest ↔ Lexeme.lineCommentLength (tail ++ rest) = tail.length := by
  constructor
  · rintro ⟨continued, ends⟩
    exact reach_line continued ends
  · intro length
    have continued := continued_take (tail ++ rest)
    rw [length, List.take_left] at continued
    refine .lineComment continued fun b first => ?_
    obtain ⟨more, rfl⟩ := List.head?_eq_some_iff.mp first
    obtain rfl := Lexeme.newline_of_lineComment (tail ++ b :: more) b more (by rw [length, List.drop_left])
    exact ⟨rfl, Lexeme.no_backslash_of_lineComment tail more length⟩

theorem reach_quoted {quote : Byte} (plain : quote ≠ Byte.backslash) {body : Bytes}
    (quoted : Quoted quote body) (rest : Bytes) :
    Lexeme.quotedLength? quote (body ++ quote :: rest) = some (body.length + 1) := by
  induction quoted with
  | nil => cases rest <;> simp [Lexeme.quotedLength?, plain]
  | pair _ ih => simp [Lexeme.quotedLength?, ih]
  | @byte b body single open_ _ ih =>
    obtain ⟨c, more, follows⟩ := List.exists_cons_of_ne_nil
      (by simp : body ++ quote :: rest ≠ [])
    rw [List.cons_append]
    rw [follows] at ih ⊢
    simp [Lexeme.quotedLength?, single, open_, ih]

theorem exists_quoted {quote : Byte} : (text : Bytes) → (n : Nat) →
    Lexeme.quotedLength? quote text = some n →
    ∃ body rest, text = body ++ quote :: rest ∧ n = body.length + 1 ∧ Quoted quote body
  | [], n, found => by cases found
  | [b], n, found => by
    simp only [Lexeme.quotedLength?] at found
    split at found
    next closes =>
      cases found
      exact ⟨[], [], by rw [closes]; rfl, rfl, .nil⟩
    next => cases found
  | b :: c :: text, n, found => by
    simp only [Lexeme.quotedLength?] at found
    split at found
    next escape =>
      obtain ⟨m, later, rfl⟩ := Option.map_eq_some_iff.mp found
      obtain ⟨body, rest, rfl, rfl, quoted⟩ := exists_quoted text m later
      exact ⟨b :: c :: body, rest, rfl, rfl, escape ▸ .pair quoted⟩
    next single =>
    split at found
    next closes =>
      cases found
      exact ⟨[], c :: text, by rw [closes]; rfl, rfl, .nil⟩
    next open_ =>
      obtain ⟨m, later, rfl⟩ := Option.map_eq_some_iff.mp found
      obtain ⟨body, rest, follows, rfl, quoted⟩ := exists_quoted (c :: text) m later
      exact ⟨b :: body, rest, by rw [follows]; rfl, rfl, .byte single open_ quoted⟩

/-- A literal reaches to its first quote that no backslash takes along. -/
theorem reach_quote {quote : Byte} (plain : quote ≠ Byte.backslash) {tail rest : Bytes} :
    (∃ body, tail = body ++ [quote] ∧ Quoted quote body) ↔
      Lexeme.quotedLength? quote (tail ++ rest) = some tail.length := by
  constructor
  · rintro ⟨body, rfl, quoted⟩
    rw [List.append_assoc, List.singleton_append, reach_quoted plain quoted rest]
    simp
  · intro found
    obtain ⟨body, more, whole, length, quoted⟩ := exists_quoted _ _ found
    obtain ⟨rfl, _⟩ : tail = body ++ [quote] ∧ rest = more := by
      apply List.append_inj
      · rw [List.append_assoc]
        exact whole
      · rw [List.length_append, length]
        rfl
    exact ⟨body, rfl, quoted⟩

def Form.reach? (text : Bytes) : Form → Option Nat
  | lineComment => some (Lexeme.lineCommentLength text)
  | blockComment => Lexeme.blockCommentLength? text
  | rawString delimiter =>
    (Bytes.find? (rawCloser delimiter) text).map (· + (rawCloser delimiter).length)
  | string => Lexeme.quotedLength? Byte.doubleQuote text
  | char => Lexeme.quotedLength? Byte.singleQuote text
  | single => some 0

theorem blockCommentLength?_eq (text : Bytes) : Lexeme.blockCommentLength? text =
    (Bytes.find? [Byte.star, Byte.slash] text).map (· + [Byte.star, Byte.slash].length) := by
  induction text with
  | nil => rfl
  | cons b text ih =>
    rw [Bytes.find?]
    cases text with
    | nil => simp [Lexeme.blockCommentLength?, Bytes.find?]
    | cons c text =>
      rw [Lexeme.blockCommentLength?, ih]
      have fits : [Byte.star, Byte.slash].isPrefixOf (b :: c :: text) = true ↔
          b = Byte.star ∧ c = Byte.slash := by
        rw [List.isPrefixOf_iff_prefix, List.cons_prefix_cons, List.cons_prefix_cons]
        simp [eq_comm]
      by_cases closes : b = Byte.star ∧ c = Byte.slash
      · rw [if_pos closes, if_pos (fits.mpr closes)]
        rfl
      · rw [if_neg closes, if_neg fun same => closes (fits.mp same), Option.map_map, Option.map_map]
        rfl

/-- A lexeme ends where the scanner takes it to end. -/
theorem closes_iff {form : Form} {tail rest : Bytes} :
    Closes form tail rest ↔ form.reach? (tail ++ rest) = some tail.length := by
  cases form with
  | lineComment => rw [closes_lineComment_iff, Form.reach?, Option.some_inj]
  | blockComment =>
    rw [Form.reach?, blockCommentLength?_eq, ← reach_closer]
    exact ⟨fun | .blockComment first => ⟨_, rfl, first⟩, fun ⟨_, same, first⟩ => same ▸ .blockComment first⟩
  | rawString delimiter =>
    rw [Form.reach?, ← reach_closer]
    exact ⟨fun | .rawString first => ⟨_, rfl, first⟩, fun ⟨_, same, first⟩ => same ▸ .rawString first⟩
  | string =>
    rw [Form.reach?, ← reach_quote (by decide)]
    exact ⟨fun | .string quoted => ⟨_, rfl, quoted⟩, fun ⟨_, same, quoted⟩ => same ▸ .string quoted⟩
  | char =>
    rw [Form.reach?, ← reach_quote (by decide)]
    exact ⟨fun | .char quoted => ⟨_, rfl, quoted⟩, fun ⟨_, same, quoted⟩ => same ▸ .char quoted⟩
  | single =>
    rw [Form.reach?, Option.some_inj, eq_comm, List.length_eq_zero_iff]
    exact ⟨fun | .single => rfl, fun same => same ▸ .single⟩

theorem reach_le {form : Form} {text : Bytes} (reached : form.reach? text = some n) :
    n ≤ text.length := by
  cases form with
  | lineComment =>
    cases reached
    exact Lexeme.lineCommentLength_le text
  | blockComment => exact (Lexeme.blockCommentLength?_spec text n reached).2.1
  | rawString delimiter =>
    obtain ⟨k, found, rfl⟩ := Option.map_eq_some_iff.mp reached
    exact Bytes.find?_le found
  | string => exact (Lexeme.quotedLength?_spec (by decide) text n reached).2.1
  | char => exact (Lexeme.quotedLength?_spec (by decide) text n reached).2.1
  | single =>
    cases reached
    exact Nat.zero_le _

end Grammar

end OutOfLine
