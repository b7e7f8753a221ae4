import OutOfLine.Proofs.Member.Placement

/-! Which signatures declare a function, and by which name: the identifier in front of the
parameter list, or the word `operator` with what follows it. -/

namespace OutOfLine

namespace Bytes

variable {depth : Nat} {b c : Byte} {text : Bytes}

theorem mem_outside_cons (sign : Byte.isIdent c = false) (solid : Byte.isWhite c = false)
    (plain : isAngle [c] = false) : [c] ∈ outside depth (tokens (b :: text)) ↔
      b = c ∧ depth = 0 ∨ [c] ∈ outside (angleStep depth [b]) (tokens text) := by
  have single (depth : Nat) (t : Bytes) (ts : List Bytes) : [c] ∈ outside depth (t :: ts) ↔
      t = [c] ∧ depth = 0 ∨ [c] ∈ outside (angleStep depth t) ts := by
    rw [outside, List.mem_append]
    refine or_congr_left ?_
    constructor
    · intro member
      split at member
      next top => exact ⟨(List.mem_singleton.mp member).symm, top.1⟩
      next => cases member
    · rintro ⟨rfl, rfl⟩
      rw [if_pos ⟨rfl, plain⟩]
      exact List.mem_singleton.mpr rfl
  rcases tokens_cons_cases b text with ⟨white, same⟩ | same | ⟨ident, t, ts, rest, word, same⟩
  · have other : b ≠ c := by
      rintro rfl
      rw [white] at solid
      cases solid
    rw [same, angleStep_of_plain (isAngle_of_white white)]
    simp [other]
  · rw [same, single, List.cons.injEq, and_iff_left rfl]
  · have other : b ≠ c := by
      rintro rfl
      rw [ident] at sign
      cases sign
    have first : isAngle (b :: t) = false := isAngle_of_ident (by simpa using ident)
    have alone : isAngle [b] = false := isAngle_of_ident (by simpa using ident)
    have long : t ≠ [c] := by
      rintro rfl
      rw [List.head?_cons, Option.any_some, sign] at word
      cases word
    rw [same, rest, single, single, angleStep_of_plain first, angleStep_of_plain alone,
      angleStep_of_plain (isAngle_of_ident word)]
    simp [other, long]

theorem tokens_behind_white {white : Bytes} (only : ∀ b ∈ white, Byte.isWhite b = true) (text : Bytes) :
    tokens (text ++ white) = tokens text := by
  have none : tokens white = [] := by simpa [tokens] using tokens_white only []
  cases white with
  | nil => rw [List.append_nil]
  | cons b white =>
    have apart : Apart text (b :: white) := by simpa using Apart.white (by simp) only text []
    rw [tokens_append apart, none, List.append_nil]

end Bytes

namespace Callable
open Bytes

variable {text word : Bytes}

/-- A parameter list begins with the first parenthesis outside all template argument lists. -/
theorem parameterListFrom?_append {angle at_ : Nat} {ahead : Bytes} (level : angleDepth angle (tokens ahead) = 0)
    (parens : [Byte.openParen] ∉ outside angle (tokens ahead))
    (equals : [Byte.equals] ∉ outside angle (tokens ahead)) (rest : Bytes) :
    parameterListFrom? angle at_ (ahead ++ Byte.openParen :: rest) = some (at_ + ahead.length) := by
  induction ahead generalizing angle at_ with
  | nil =>
    obtain rfl : angle = 0 := level
    rfl
  | cons b ahead ih =>
    rw [angleDepth_cons] at level
    rw [mem_outside_cons rfl rfl rfl, not_or] at parens equals
    have goesOn {angle' : Nat} (same : angleStep angle [b] = angle') :
        parameterListFrom? angle' (at_ + 1) (ahead ++ Byte.openParen :: rest) =
          some (at_ + (b :: ahead).length) := by
      rw [← same, ih level parens.2 equals.2, List.length_cons, Nat.add_assoc, Nat.add_comm 1]
    rw [List.cons_append, parameterListFrom?]
    split
    next less => exact goesOn (by rw [less]; rfl)
    split
    next greater => exact goesOn (by rw [greater]; rfl)
    next noLess noGreater =>
    rw [if_neg equals.1, if_neg parens.1]
    exact goesOn (angleStep_of_plain (by simp [isAngle, noLess, noGreater]) angle)

theorem mem_tokens_of_findWordFrom? (is_word : word.IsWord) {k : Nat}
    (found : findWordFrom? word 0 none text = some k) : word ∈ tokens text := by
  obtain ⟨more, whole⟩ := begins_of_findWordFrom? List.drop_zero found
  have ends := end_of_findWordFrom? List.drop_zero found
  rw [← List.drop_drop, ← whole, List.drop_left, atWordEnd, Bool.not_eq_true'] at ends
  have before : Apart (text.take k) (word ++ more) := by
    intro last
    obtain ⟨b, here, start⟩ := nameAt_of_findWordFrom? (fun b first => is_word.ident b (List.mem_of_head? first))
      is_word.some_byte List.drop_zero (by omega) found
    have first := is_word.first more
    rw [whole, List.head?_drop, here, Option.any_some] at first
    rcases start with rfl | ⟨_, apart⟩
    · cases first
    · have positive : k ≠ 0 := by
        rintro rfl
        cases last
      have bound := (List.getElem?_eq_some_iff.mp here).1
      have known := List.getElem?_eq_getElem (by omega : k - 1 < text.length)
      rw [List.getLast?_take, if_neg positive, known, Option.some_or, Option.any_some,
        apart _ (Nat.pos_of_ne_zero positive) known] at last
      cases last
  rw [← List.take_append_drop k text, ← whole, tokens_append before, tokens_append fun _ => ends, is_word.tokens]
  simp

/-- A search goes past a text in which no word begins. -/
theorem findWordFrom?_append {front rest : Bytes} {at_ : Nat} {before : Option Byte}
    (none : ∀ first second, front = first ++ second → second ≠ [] →
      word.isPrefixOf (second ++ rest) = true → (first.getLast?.or before).any Byte.isIdent = false →
      atWordEnd ((second ++ rest).drop word.length) = false) :
    findWordFrom? word at_ before (front ++ rest) =
      findWordFrom? word (at_ + front.length) (front.getLast?.or before) rest := by
  induction front generalizing at_ before with
  | nil => rfl
  | cons b front ih =>
    have miss : (word.isPrefixOf (b :: (front ++ rest)) && !before.any Byte.isIdent &&
        atWordEnd ((b :: (front ++ rest)).drop word.length)) = false := by
      rw [Bool.eq_false_iff]
      intro fits
      simp only [Bool.and_eq_true, Bool.not_eq_true'] at fits
      have stops := none [] (b :: front) rfl (by simp) fits.1.1 fits.1.2
      rw [List.cons_append, fits.2] at stops
      cases stops
    rw [List.cons_append, findWordFrom?, if_neg (by simp [miss]), ih ?_, List.length_cons, Nat.add_assoc,
      Nat.add_comm 1]
    · congr 1
      cases front with
      | nil => rfl
      | cons c front => simp [List.getLast?_cons]
    · intro first second parts some_second begins apart
      refine none (b :: first) second (by rw [parts]; rfl) some_second begins ?_
      cases first with
      | nil => exact apart
      | cons c first => simpa [List.getLast?_cons] using apart

/-- A search finds the first of the tokens that are the word. -/
theorem findWordFrom?_first (is_word : word.IsWord) {front more : Bytes} (absent : word ∉ tokens front)
    (before : Apart front word) (behind : Apart word more) :
    findWordFrom? word 0 none (front ++ (word ++ more)) = some front.length := by
  rw [findWordFrom?_append, Nat.zero_add]
  · obtain ⟨b, word', rfl⟩ := List.exists_cons_of_ne_nil is_word.some_byte
    have start : (front.getLast?.or none).any Byte.isIdent = false := by
      rw [Option.or_none, Bool.eq_false_iff]
      intro last
      have stops := before last
      have first := is_word.first []
      rw [List.append_nil, stops] at first
      cases first
    rw [List.cons_append, findWordFrom?, if_pos]
    rw [Bool.and_eq_true, Bool.and_eq_true]
    refine ⟨⟨?_, by rw [start]; rfl⟩, ?_⟩
    · rw [← List.cons_append]
      exact List.isPrefixOf_iff_prefix.mpr (List.prefix_append _ _)
    · rw [← List.cons_append, List.drop_left, atWordEnd, behind is_word.last]
      rfl
  · rintro first second rfl some_second begins apart
    rw [Option.or_none] at apart
    have begins := List.isPrefixOf_iff_prefix.mp begins
    by_cases long : word.length ≤ second.length
    · obtain ⟨tail, rfl⟩ := List.prefix_of_prefix_length_le begins (List.prefix_append _ _) long
      rw [List.append_assoc, List.drop_left, atWordEnd, Bool.not_eq_false']
      by_contra stops
      rw [Bool.not_eq_true] at stops
      refine absent ?_
      have inner : Apart word tail := fun _ => by
        cases tail with
        | nil => rfl
        | cons b tail => exact stops
      have outer : Apart first (word ++ tail) := fun last => by rw [apart] at last; cases last
      rw [tokens_append outer, tokens_append inner, is_word.tokens]
      simp
    · obtain ⟨tail, same⟩ := List.prefix_of_prefix_length_le (List.prefix_append second _) begins (by omega)
      have last : (first ++ second).getLast?.any Byte.isIdent = true := by
        rw [List.getLast?_append_of_ne_nil _ some_second, List.getLast?_eq_some_getLast some_second]
        exact is_word.ident _ (same ▸ List.mem_append_left _ (List.getLast_mem some_second))
      have stops := before last
      have first := is_word.first []
      rw [List.append_nil, stops] at first
      cases first

/-- No parenthesis and no equals sign stands in a text outside all template argument lists. -/
structure Precedes (front : Bytes) : Prop where
  level : angleDepth 0 (tokens front) = 0
  parens : [Byte.openParen] ∉ outside 0 (tokens front)
  equals : [Byte.equals] ∉ outside 0 (tokens front)

/-- The identifier `word` behind `front` names a function, if the first parameter list follows. -/
structure Identifies (front word : Bytes) : Prop where
  precedes : Precedes front
  is_word : word.IsWord
  letter : word.head?.any Byte.isDigit = false
  whole : front.getLast?.any Byte.isIdent = false
  control : front.getLast? = some Byte.tilde ∨ word ∉ controlWords
  type : (words (front ++ word)).head?.any typeWords.contains = false

def identifierSpan (front word : Bytes) : Span :=
  ⟨if front.getLast? = some Byte.tilde then front.length - 1 else front.length, front.length + word.length⟩

theorem solid_of_ident {b : Byte} (ident : Byte.isIdent b = true) : Byte.isBlank b = false := by
  have white := not_white_of_ident ident
  rw [Byte.isWhite, Bool.or_eq_false_iff] at white
  exact white.1

variable {front gap : Bytes}

theorem plainName?_append (identifies : Identifies front word) (blank : ∀ b ∈ gap, Byte.isBlank b = true) :
    plainName? (front ++ (word ++ gap)) = some (identifierSpan front word) := by
  obtain ⟨_, is_word, letter, whole, control, _⟩ := identifies
  have some_word : word.reverse ≠ [] := by simpa using is_word.some_byte
  have ident : ∀ b ∈ word.reverse, Byte.isIdent b = true := by simpa using is_word.ident
  have tokens : (front ++ (word ++ gap)).reverse.dropWhile Byte.isBlank = word.reverse ++ front.reverse := by
    rw [List.reverse_append, List.reverse_append, List.append_assoc,
      List.dropWhile_append_of_pos (by simpa using blank)]
    obtain ⟨b, rest, same⟩ := List.exists_cons_of_ne_nil some_word
    rw [same, List.cons_append, List.dropWhile_cons_of_neg]
    rw [solid_of_ident (ident b (by simp [same]))]
    simp
  have run : (word.reverse ++ front.reverse).takeWhile Byte.isIdent = word.reverse := by
    rw [List.takeWhile_append_of_pos ident]
    cases last : front.reverse with
    | nil => simp
    | cons b rest =>
      rw [← List.head?_reverse, last, List.head?_cons, Option.any_some] at whole
      rw [List.takeWhile_cons_of_neg (by simp [whole]), List.append_nil]
  rw [plainName?, tokens]
  dsimp only
  rw [run, List.drop_left, List.head?_reverse, List.getLast?_reverse, letter]
  have size : (word.reverse ++ front.reverse).length = front.length + word.length := by simp [Nat.add_comm]
  cases tilde : front.getLast? == some Byte.tilde with
  | true =>
    have last : front.getLast? = some Byte.tilde := eq_of_beq tilde
    have name : ((word.reverse ++ front.reverse).take (word.reverse.length + 1)).reverse = Byte.tilde :: word := by
      obtain ⟨rest, first⟩ := List.head?_eq_some_iff.mp (List.head?_reverse.trans last)
      rw [List.take_length_add_append, first]
      simp
    have other : Byte.tilde :: word ∉ controlWords := by
      have first : ∀ w ∈ controlWords, w.head? ≠ some Byte.tilde := by decide +kernel
      exact fun member => first _ member rfl
    rw [List.length_reverse] at name
    simp [guard, some_word, name, other, identifierSpan, size, last]
    omega
  | false =>
    have apart : front.getLast? ≠ some Byte.tilde := by simpa using tilde
    have free := control.resolve_left apart
    simp [guard, some_word, free, identifierSpan, size, apart]

theorem words_behind_blank (blank : ∀ b ∈ gap, Byte.isBlank b = true) (text : Bytes) :
    words (text ++ gap) = words text := by
  have same (text : Bytes) : words text = (outside 0 (tokens text)).filter (·.head?.any Byte.isIdent) :=
    wordsFrom_eq (.inl rfl) (by simp) text
  rw [same, same, tokens_behind_white fun b member => Byte.isWhite_of_isBlank (blank b member)]

/-- A signature with a parameter list behind an identifier declares a function by it. -/
theorem name?_of_identifies (identifies : Identifies front word) (blank : ∀ b ∈ gap, Byte.isBlank b = true) {rest : Bytes}
    (noOperator : utf8 "operator" ∉ tokens (front ++ (word ++ (gap ++ Byte.openParen :: rest)))) :
    name? (front ++ (word ++ (gap ++ Byte.openParen :: rest))) = some (identifierSpan front word) := by
  have operator : (utf8 "operator").IsWord := by decide +kernel
  have parts : tokens (front ++ (word ++ gap)) = tokens front ++ [word] := by
    have apart : Apart front word := fun last => by
      rw [identifies.whole] at last
      cases last
    rw [← List.append_assoc, tokens_behind_white fun b member => Byte.isWhite_of_isBlank (blank b member),
      tokens_append apart, identifies.is_word.tokens]
  have first := identifies.is_word.first []
  rw [List.append_nil] at first
  have plain := isAngle_of_ident first
  have sign {b : Byte} (sign : Byte.isIdent b = false) (absent : [b] ∉ outside 0 (tokens front)) :
      [b] ∉ outside 0 (tokens (front ++ (word ++ gap))) := by
    rw [parts, outside_append, identifies.precedes.level, List.mem_append, not_or]
    refine ⟨absent, fun member => ?_⟩
    rw [outside, if_pos ⟨rfl, plain⟩] at member
    obtain rfl : [b] = word := by simpa [outside] using member
    rw [List.head?_cons, Option.any_some, sign] at first
    cases first
  have list : parameterListFrom? 0 0 (front ++ (word ++ (gap ++ Byte.openParen :: rest))) =
      some (front ++ (word ++ gap)).length := by
    have found : parameterListFrom? 0 0 (front ++ (word ++ gap) ++ Byte.openParen :: rest) = _ :=
      parameterListFrom?_append (by rw [parts, angleDepth_append, identifies.precedes.level]; exact angleStep_of_plain plain 0)
        (sign rfl identifies.precedes.parens) (sign rfl identifies.precedes.equals) rest
    simpa [List.append_assoc] using found
  have ahead : (front ++ (word ++ (gap ++ Byte.openParen :: rest))).take (front ++ (word ++ gap)).length =
      front ++ (word ++ gap) := by
    rw [show front ++ (word ++ (gap ++ Byte.openParen :: rest)) =
      front ++ (word ++ gap) ++ Byte.openParen :: rest by simp, List.take_left]
  have type := identifies.type
  rw [← words_behind_blank blank, List.append_assoc] at type
  rw [name?]
  cases found : findWordFrom? (utf8 "operator") 0 none (front ++ (word ++ (gap ++ Byte.openParen :: rest))) with
  | some keyword => exact absurd (mem_tokens_of_findWordFrom? operator found) noOperator
  | none =>
    dsimp only
    rw [list, Option.bind_eq_bind, Option.bind_some, ahead, type]
    exact plainName?_append identifies blank

/-- What follows the word `operator` in the name of an operator. The first parentheses of `operator()`
belong to it. -/
structure Symbol (symbol : Bytes) : Prop where
  control : ∀ w ∈ tokens symbol, w ∉ controlWords
  apart : symbol.head?.any Byte.isIdent = false
  last : ∃ b, symbol.getLast? = some b ∧ Byte.isBlank b = false
  parens : Byte.openParen ∉ symbol ∨ ∃ gap more, symbol = gap ++ (utf8 "()" ++ more) ∧
    (∀ b ∈ gap, Byte.isBlank b = true) ∧ Byte.openParen ∉ more

theorem lengthToLastToken_append {b : Byte} (last : text.getLast? = some b) (solid : Byte.isBlank b = false)
    (blank : ∀ b ∈ gap, Byte.isBlank b = true) : lengthToLastToken (text ++ gap) = text.length := by
  obtain ⟨front, rfl⟩ := List.getLast?_eq_some_iff.mp last
  rw [lengthToLastToken, List.reverse_append, List.dropWhile_append_of_pos (by simpa using blank),
    List.reverse_append, List.reverse_singleton, List.singleton_append,
    List.dropWhile_cons_of_neg (by simp [solid])]
  simp

theorem findIdx?_openParen {text : Bytes} (absent : Byte.openParen ∉ text) (rest : Bytes) :
    (text ++ Byte.openParen :: rest).findIdx? (· == Byte.openParen) = some text.length := by
  rw [List.findIdx?_append, List.findIdx?_eq_none_iff.mpr fun b member => ?_]
  · simp [List.findIdx?_cons]
  · rw [beq_eq_false_iff_ne]
    rintro rfl
    exact absent member

def listStart (tail : Bytes) : Nat :=
  let gap := (tail.takeWhile Byte.isBlank).length
  if (utf8 "()").isPrefixOf (tail.drop gap) then gap + 2 else gap

theorem operatorName?_append (front tail : Bytes) :
    operatorName? (front ++ (utf8 "operator" ++ tail)) front.length =
      ((tail.drop (listStart tail)).findIdx? (· == Byte.openParen)).map fun distance =>
        ⟨front.length, front.length + lengthToLastToken (utf8 "operator" ++ tail.take (listStart tail + distance))⟩ := by
  have drop (k : Nat) : (front ++ (utf8 "operator" ++ tail)).drop (front.length + (utf8 "operator").length + k) =
      tail.drop k := by
    rw [← List.append_assoc, ← List.length_append, List.drop_length_add_append]
  have take (k : Nat) : ((front ++ (utf8 "operator" ++ tail)).take
      (front.length + (utf8 "operator").length + k)).drop front.length = utf8 "operator" ++ tail.take k := by
    rw [← List.append_assoc, ← List.length_append, List.take_length_add_append, List.append_assoc, List.drop_left]
  have here := drop 0
  rw [Nat.add_zero, List.drop_zero] at here
  have start : (if (utf8 "()").isPrefixOf (tail.drop (tail.takeWhile Byte.isBlank).length)
      then front.length + (utf8 "operator").length + (tail.takeWhile Byte.isBlank).length + 2
      else front.length + (utf8 "operator").length + (tail.takeWhile Byte.isBlank).length) =
      front.length + (utf8 "operator").length + listStart tail := by
    unfold listStart
    dsimp only
    split <;> omega
  unfold operatorName?
  dsimp only
  rw [here, drop, start, drop]
  cases (tail.drop (listStart tail)).findIdx? (· == Byte.openParen) with
  | none => rfl
  | some distance =>
    rw [Option.bind_eq_bind, Option.bind_some, Nat.add_assoc _ _ distance, take]
    rfl

theorem listStart_append {first rest : Bytes} {b : Byte} (blank : ∀ b ∈ first, Byte.isBlank b = true)
    (solid : Byte.isBlank b = false) : listStart (first ++ b :: rest) =
      if (utf8 "()").isPrefixOf (b :: rest) then first.length + 2 else first.length := by
  rw [listStart, List.takeWhile_append_of_pos blank, List.takeWhile_cons_of_neg (by simp [solid]),
    List.append_nil, List.drop_left]

theorem Symbol.list {symbol : Bytes} (own : Symbol symbol) (blank : ∀ b ∈ gap, Byte.isBlank b = true)
    (rest : Bytes) : ∃ distance, ((symbol ++ (gap ++ Byte.openParen :: rest)).drop
        (listStart (symbol ++ (gap ++ Byte.openParen :: rest)))).findIdx? (· == Byte.openParen) = some distance ∧
      listStart (symbol ++ (gap ++ Byte.openParen :: rest)) + distance = (symbol ++ gap).length := by
  have noParen : Byte.openParen ∉ gap := fun member => by cases blank _ member
  have found {text : Bytes} (absent : Byte.openParen ∉ text) :
      (text ++ gap ++ Byte.openParen :: rest).findIdx? (· == Byte.openParen) = some (text ++ gap).length :=
    findIdx?_openParen (by rw [List.mem_append, not_or]; exact ⟨absent, noParen⟩) rest
  rcases own.parens with absent | ⟨first, more, rfl, white, absent⟩
  · have parts := List.takeWhile_append_dropWhile (p := Byte.isBlank) (l := symbol)
    have white : ∀ b ∈ symbol.takeWhile Byte.isBlank, Byte.isBlank b = true :=
      List.all_eq_true.mp List.all_takeWhile
    have stops := List.head?_dropWhile_not Byte.isBlank symbol
    generalize symbol.takeWhile Byte.isBlank = first at parts white
    generalize symbol.dropWhile Byte.isBlank = core at parts stops
    subst parts
    cases core with
    | nil =>
      obtain ⟨b, last, solid⟩ := own.last
      rw [List.append_nil] at last
      rw [white b (List.mem_of_getLast? last)] at solid
      cases solid
    | cons b core =>
      have other : b ≠ Byte.openParen := fun same => absent (by simp [same])
      have start : listStart (first ++ b :: core ++ (gap ++ Byte.openParen :: rest)) = first.length := by
        rw [List.append_assoc, List.cons_append, listStart_append white (by simpa using stops), if_neg]
        rw [List.isPrefixOf_iff_prefix]
        intro begins
        exact other (List.cons_prefix_cons.mp begins).1.symm
      rw [start, List.append_assoc, List.drop_left, ← List.append_assoc (b :: core)]
      refine ⟨_, found fun member => absent (List.mem_append_right _ member), ?_⟩
      simp only [List.length_append]
      omega
  · have start : listStart (first ++ (utf8 "()" ++ more) ++ (gap ++ Byte.openParen :: rest)) = first.length + 2 := by
      rw [List.append_assoc, List.append_assoc]
      exact (listStart_append white rfl).trans (if_pos rfl)
    rw [start, List.append_assoc, List.drop_length_add_append]
    refine ⟨(more ++ gap).length, ?_, ?_⟩
    · rw [List.append_assoc, ← List.append_assoc more]
      exact found absent
    · have two : (utf8 "()").length = 2 := rfl
      simp only [List.length_append, two]
      omega

/-- A signature with the word `operator` in front of its first parameter list declares an operator. -/
theorem name?_of_symbol {symbol rest : Bytes} (before : Apart front (utf8 "operator"))
    (absent : utf8 "operator" ∉ tokens front) (own : Symbol symbol)
    (blank : ∀ b ∈ gap, Byte.isBlank b = true) :
    name? (front ++ (utf8 "operator" ++ (symbol ++ (gap ++ Byte.openParen :: rest)))) =
      some ⟨front.length, front.length + (utf8 "operator" ++ symbol).length⟩ := by
  have operator : (utf8 "operator").IsWord := by decide +kernel
  obtain ⟨b, last, solid⟩ := own.last
  have some_symbol : symbol ≠ [] := by
    rintro rfl
    cases last
  have behind : Apart (utf8 "operator") (symbol ++ (gap ++ Byte.openParen :: rest)) := fun _ => by
    rw [List.head?_append_of_ne_nil _ some_symbol]
    exact own.apart
  obtain ⟨distance, found, place⟩ := own.list blank rest
  have name : utf8 "operator" ++ (symbol ++ (gap ++ Byte.openParen :: rest)).take (symbol ++ gap).length =
      (utf8 "operator" ++ symbol) ++ gap := by
    rw [← List.append_assoc symbol, List.take_left, List.append_assoc]
  rw [name?, findWordFrom?_first operator absent before behind]
  dsimp only
  rw [operatorName?_append, found, Option.map_some, place, name,
    lengthToLastToken_append ((List.getLast?_append_of_ne_nil _ some_symbol).trans last) solid blank]

/-- The code of a signature declares a function by the name at a span of it: by an identifier, or by the
word `operator`, each in front of the first parameter list. -/
inductive Names : Bytes → Span → Prop
  | identifier {front word gap rest : Bytes} : Identifies front word → (∀ b ∈ gap, Byte.isBlank b = true) →
      utf8 "operator" ∉ tokens (front ++ (word ++ (gap ++ Byte.openParen :: rest))) →
      Names (front ++ (word ++ (gap ++ Byte.openParen :: rest))) (identifierSpan front word)
  | operator {front symbol gap rest : Bytes} : Precedes front →
      (words (front ++ utf8 "operator")).head?.any typeWords.contains = false →
      utf8 "operator" ∉ tokens front → Apart front (utf8 "operator") → Symbol symbol → (∀ b ∈ gap, Byte.isBlank b = true) →
      Names (front ++ (utf8 "operator" ++ (symbol ++ (gap ++ Byte.openParen :: rest))))
        ⟨front.length, front.length + (utf8 "operator" ++ symbol).length⟩

namespace Names

variable {name : Span}

theorem name? (names : Names text name) : name? text = some name := by
  cases names with
  | identifier identifies blank noOperator => exact name?_of_identifies identifies blank noOperator
  | operator _ _ absent before own blank => exact name?_of_symbol before absent own blank

/-- White space at the end of a signature is no part of what it declares. -/
theorem cut {white : Bytes} (names : Names (text ++ white) name) (only : ∀ b ∈ white, Byte.isWhite b = true) :
    Names text name := by
  have shorter (ahead rest : Bytes) (same : text ++ white = ahead ++ Byte.openParen :: rest) :
      ∃ rest', text = ahead ++ Byte.openParen :: rest' := by
    rcases List.append_eq_append_iff.mp same with ⟨more, _, behind⟩ | ⟨more, front, behind⟩
    · cases only Byte.openParen (by simp [behind])
    · cases more with
      | nil => cases only Byte.openParen (by rw [← List.nil_append white, ← behind]; exact .head _)
      | cons b more =>
        obtain ⟨rfl, _⟩ := List.cons.inj behind
        exact ⟨more, front⟩
  generalize whole : text ++ white = all at names
  cases names with
  | @identifier front word gap rest identifies blank noOperator =>
    rw [← whole, tokens_behind_white only] at noOperator
    obtain ⟨rest', rfl⟩ := shorter (front ++ (word ++ gap)) rest (by simp [whole])
    rw [List.append_assoc, List.append_assoc] at noOperator ⊢
    exact .identifier identifies blank noOperator
  | @operator front symbol gap rest precedes type absent before own blank =>
    obtain ⟨rest', rfl⟩ := shorter (front ++ (utf8 "operator" ++ (symbol ++ gap))) rest (by simp [whole])
    rw [List.append_assoc, List.append_assoc, List.append_assoc]
    exact .operator precedes type absent before own blank

end Names

end Callable

namespace Bytes

variable {depth : Nat} {b c : Byte} {text word : Bytes}

/-- Whether all template argument lists are closed behind a text, if `depth` are open in front of it. -/
def AnglesEven (depth : Nat) (text : Bytes) : Prop := depth + text.count Byte.less = text.count Byte.greater

/-- Whether no angle bracket of a text closes a list that is not open. -/
def AnglesOpened (depth : Nat) (text : Bytes) : Prop :=
  ∀ n ≤ text.length, (text.take n).count Byte.greater ≤ depth + (text.take n).count Byte.less

/-- Whether a word of a text begins at an offset, the first one outside all lists. -/
structure FirstWordAt (depth : Nat) (text : Bytes) (at_ : Nat) : Prop where
  even : AnglesEven depth (text.take at_)
  ident : (text.drop at_).head?.any Byte.isIdent = true
  first : ∀ i < at_, AnglesEven depth (text.take i) → (text.drop i).head?.any Byte.isIdent = false

/-- Whether some bytes are nowhere in a text a whole word. -/
def NoWord (word text : Bytes) : Prop :=
  ∀ i < text.length, word <+: text.drop i →
    (text.take i).getLast?.any Byte.isIdent = true ∨ (text.drop (i + word.length)).head?.any Byte.isIdent = true

instance (depth : Nat) (text : Bytes) : Decidable (AnglesEven depth text) := inferInstanceAs (Decidable (_ = _))

instance (depth : Nat) (text : Bytes) : Decidable (AnglesOpened depth text) :=
  inferInstanceAs (Decidable (∀ n ≤ text.length, _))

instance (depth : Nat) (text : Bytes) (at_ : Nat) : Decidable (FirstWordAt depth text at_) :=
  decidable_of_iff (AnglesEven depth (text.take at_) ∧ (text.drop at_).head?.any Byte.isIdent = true ∧
      ∀ i < at_, AnglesEven depth (text.take i) → (text.drop i).head?.any Byte.isIdent = false)
    ⟨fun ⟨even, ident, first⟩ => ⟨even, ident, first⟩, fun ⟨even, ident, first⟩ => ⟨even, ident, first⟩⟩

instance (word text : Bytes) : Decidable (NoWord word text) :=
  inferInstanceAs (Decidable (∀ i < text.length, _))

theorem angleStep_count (closes : b = Byte.greater → 0 < depth) :
    angleStep depth [b] + (if b = Byte.greater then 1 else 0) = depth + if b = Byte.less then 1 else 0 := by
  have other : Byte.less ≠ Byte.greater := by decide
  unfold angleStep
  by_cases less : b = Byte.less
  · simp [less, other]
  · by_cases greater : b = Byte.greater
    · have := closes greater
      simp [greater, other.symm]
      omega
    · simp [less, greater]

theorem anglesEven_cons (closes : b = Byte.greater → 0 < depth) :
    AnglesEven depth (b :: text) ↔ AnglesEven (angleStep depth [b]) text := by
  have step := angleStep_count closes
  simp only [AnglesEven, List.count_cons, beq_iff_eq]
  omega

namespace AnglesOpened

theorem closes (opened : AnglesOpened depth (b :: text)) : b = Byte.greater → 0 < depth := by
  rintro rfl
  have first := opened 1 (by simp)
  have other : [Byte.greater].count Byte.less = 0 := by decide
  simp only [List.take_succ_cons, List.take_zero, List.count_singleton_self, other] at first
  omega

theorem tail (opened : AnglesOpened depth (b :: text)) : AnglesOpened (angleStep depth [b]) text := by
  intro n bound
  have step := angleStep_count opened.closes
  have := opened (n + 1) (Nat.succ_le_succ bound)
  simp only [List.take_succ_cons, List.count_cons, beq_iff_eq] at this
  omega

theorem angleDepth (opened : AnglesOpened depth text) :
    angleDepth depth (tokens text) + text.count Byte.greater = depth + text.count Byte.less := by
  induction text generalizing depth with
  | nil => rfl
  | cons b text ih =>
    have step := angleStep_count opened.closes
    have later := ih opened.tail
    rw [angleDepth_cons]
    simp only [List.count_cons, beq_iff_eq]
    omega

theorem exists_outside (opened : AnglesOpened depth text) (sign : Byte.isIdent c = false)
    (solid : Byte.isWhite c = false) (plain : isAngle [c] = false) (member : [c] ∈ outside depth (tokens text)) :
    ∃ i < text.length, AnglesEven depth (text.take i) ∧ text[i]? = some c := by
  induction text generalizing depth with
  | nil => cases member
  | cons b text ih =>
    rcases (mem_outside_cons sign solid plain).mp member with ⟨rfl, rfl⟩ | member
    · exact ⟨0, by simp, rfl, rfl⟩
    · obtain ⟨i, bound, even, here⟩ := ih opened.tail member
      exact ⟨i + 1, Nat.succ_lt_succ bound, (anglesEven_cons opened.closes).mpr even, here⟩

end AnglesOpened

/-- Words that are whole nowhere are no tokens. -/
theorem NoWord.not_mem_tokens (absent : NoWord word text) (is_word : word.IsWord) : word ∉ tokens text := by
  intro member
  obtain ⟨front, back, parts⟩ := List.append_of_mem member
  obtain ⟨first, second, rfl, apart, _, behind⟩ := tokens_split parts
  obtain ⟨white, rest, rfl, only, stops, _⟩ := exists_word is_word behind
  have before : (first ++ white).getLast?.any Byte.isIdent = false := by
    rcases List.eq_nil_or_concat white with rfl | ⟨white, b, rfl⟩
    · rw [List.append_nil, Bool.eq_false_iff]
      intro last
      have := apart last
      rw [List.nil_append, is_word.first] at this
      cases this
    · simpa [List.getLast?_append] using not_ident_of_white (only b (by simp))
  have positive := List.length_pos_iff.mpr is_word.some_byte
  rw [← List.append_assoc first] at absent
  rcases absent (first ++ white).length (by simp; omega) (by rw [List.drop_left]; exact List.prefix_append _ _)
    with last | next
  · rw [List.take_left, before] at last
    cases last
  · rw [← List.drop_drop, List.drop_left, List.drop_left, stops is_word.last] at next
    cases next

end Bytes

namespace Callable
open Bytes

variable {text word front gap : Bytes} {depth : Nat}

theorem head?_close (some_word : word ≠ []) (words : List Bytes) : (close word words).head? = some word.reverse := by
  rw [close, if_neg some_word, List.head?_cons]

/-- A word that has begun outside all lists ends where no identifier goes on. -/
theorem head?_wordsFrom (some_word : word ≠ []) (text : Bytes) :
    (wordsFrom 0 word text).head? = some (word.reverse ++ text.takeWhile Byte.isIdent) := by
  induction text generalizing word with
  | nil =>
    rw [wordsFrom, head?_close some_word]
    simp
  | cons b text ih =>
    rw [wordsFrom]
    split
    next less => rw [head?_close some_word, less, List.takeWhile_cons_of_neg (by decide), List.append_nil]
    split
    next greater => rw [head?_close some_word, greater, List.takeWhile_cons_of_neg (by decide), List.append_nil]
    split
    next goes_on =>
      rw [ih (by simp), List.takeWhile_cons_of_pos goes_on.1, List.reverse_cons, List.append_assoc]
      rfl
    next stops =>
      rw [head?_close some_word, List.takeWhile_cons_of_neg fun ident => stops ⟨ident, rfl⟩, List.append_nil]

/-- The first word that is read is the first one outside all lists. -/
theorem exists_firstWordAt (opened : AnglesOpened depth text) (found : (wordsFrom depth [] text).head? = some word) :
    ∃ i < text.length, FirstWordAt depth text i ∧ word = (text.drop i).takeWhile Byte.isIdent := by
  induction text generalizing depth with
  | nil => cases found
  | cons b text ih =>
    have later (plain : depth = 0 → Byte.isIdent b = false)
        (found : (wordsFrom (angleStep depth [b]) [] text).head? = some word) :
        ∃ i < (b :: text).length, FirstWordAt depth (b :: text) i ∧
          word = ((b :: text).drop i).takeWhile Byte.isIdent := by
      obtain ⟨i, bound, ⟨even, ident, first⟩, same⟩ := ih opened.tail found
      refine ⟨i + 1, Nat.succ_lt_succ bound, ⟨(anglesEven_cons opened.closes).mpr even, ident, ?_⟩, same⟩
      rintro (_ | k) before top
      · exact plain top
      · exact first k (Nat.lt_of_succ_lt_succ before) ((anglesEven_cons opened.closes).mp top)
    rw [wordsFrom, close, if_pos rfl, close, if_pos rfl, close, if_pos rfl] at found
    split at found
    next less => exact later (fun _ => less ▸ rfl) (by rw [less]; exact found)
    split at found
    next greater => exact later (fun _ => greater ▸ rfl) (by rw [greater]; exact found)
    next no_less no_greater =>
    split at found
    next begins =>
      obtain ⟨ident, rfl⟩ := begins
      rw [head?_wordsFrom (by simp)] at found
      refine ⟨0, by simp, ⟨rfl, by simpa using ident, fun i before => absurd before (Nat.not_lt_zero i)⟩, ?_⟩
      rw [List.drop_zero, List.takeWhile_cons_of_pos ident, ← Option.some.inj found]
      rfl
    next stops =>
      refine later (fun top => ?_) ?_
      · rw [Bool.eq_false_iff]
        exact fun ident => stops ⟨ident, top⟩
      · rwa [angleStep_of_plain (by simp [isAngle, no_less, no_greater])]

/-- What may stand in front of the name of a function that is no operator, and what may be the name. In front
the angle brackets are balanced, with no parenthesis and no equals sign outside of them, and no word and no
tilde ends right before the name. The name is an identifier and no word of statements, and the first word
outside of angle brackets, which may be the name, begins no type. -/
structure Introduces (front name : Bytes) : Prop where
  opened : AnglesOpened 0 front
  even : AnglesEven 0 front
  plain : ∀ i < front.length, AnglesEven 0 (front.take i) →
    front[i]? ≠ some Byte.openParen ∧ front[i]? ≠ some Byte.equals
  apart : front.getLast?.any Byte.isIdent = false
  no_destructor : front.getLast? ≠ some Byte.tilde
  is_word : name.IsWord
  letter : name.head?.any Byte.isDigit = false
  no_control : name ∉ controlWords
  no_type : ∀ i < (front ++ name).length, FirstWordAt 0 (front ++ name) i →
    ((front ++ name).drop i).takeWhile Byte.isIdent ∉ typeWords

variable {name : Bytes}

theorem anglesOpened_append (opened : AnglesOpened 0 front) (is_word : name.IsWord) :
    AnglesOpened 0 (front ++ name) := by
  have absent {b : Byte} (sign : Byte.isIdent b = false) (n : Nat) : (name.take n).count b = 0 := by
    refine List.count_eq_zero_of_not_mem fun member => ?_
    rw [is_word.ident b (List.mem_of_mem_take member)] at sign
    cases sign
  intro n _
  have front_part := opened (min n front.length) (Nat.min_le_right _ _)
  rw [← List.take_eq_take_min] at front_part
  rw [List.take_append, List.count_append, List.count_append, absent (b := Byte.greater) rfl,
    absent (b := Byte.less) rfl]
  exact front_part

theorem Introduces.precedes (introduces : Introduces front name) : Precedes front := by
  obtain ⟨opened, even, plain, _⟩ := introduces
  refine ⟨?_, ?_, ?_⟩
  · have total := opened.angleDepth
    rw [AnglesEven] at even
    omega
  · intro member
    obtain ⟨i, bound, top, here⟩ := opened.exists_outside rfl rfl rfl member
    exact (plain i bound top).1 here
  · intro member
    obtain ⟨i, bound, top, here⟩ := opened.exists_outside rfl rfl rfl member
    exact (plain i bound top).2 here

theorem Introduces.identifies (introduces : Introduces front name) : Identifies front name := by
  have precedes := introduces.precedes
  obtain ⟨opened, _, _, apart, _, is_word, letter, no_control, no_type⟩ := introduces
  refine ⟨precedes, is_word, letter, apart, .inr no_control, ?_⟩
  cases found : (words (front ++ name)).head? with
  | none => rfl
  | some word =>
    obtain ⟨i, bound, first, rfl⟩ := exists_firstWordAt (anglesOpened_append opened is_word) found
    simpa using no_type i bound first

/-- A parameter list behind an identifier makes it the name of a function, whatever stands in the template
argument lists in front of it, if `operator` is no word of the signature. -/
theorem name?_of_introduces (introduces : Introduces front name) (blank : ∀ b ∈ gap, Byte.isBlank b = true)
    (rest : Bytes) (no_operator : NoWord (utf8 "operator") (front ++ (name ++ (gap ++ Byte.openParen :: rest)))) :
    name? (front ++ (name ++ (gap ++ Byte.openParen :: rest))) =
      some ⟨front.length, front.length + name.length⟩ := by
  have operator : (utf8 "operator").IsWord := by decide +kernel
  rw [name?_of_identifies introduces.identifies blank (no_operator.not_mem_tokens operator), identifierSpan,
    if_neg introduces.no_destructor]

theorem name?_of_introduces_template :
    let front := utf8 "std::map<F<(a = 1)>, class B> "
    let text := front ++ (utf8 "make" ++ (utf8 " " ++ Byte.openParen :: utf8 "int operators)"))
    Introduces front (utf8 "make") ∧ (∀ b ∈ utf8 " ", Byte.isBlank b = true) ∧ NoWord (utf8 "operator") text ∧
      name? text = some ⟨30, 34⟩ := by
  intro front text
  have introduces : Introduces front (utf8 "make") :=
    ⟨by decide +kernel, by decide +kernel, by decide +kernel, by decide +kernel, by decide +kernel,
      by decide +kernel, by decide +kernel, by decide +kernel, by decide +kernel⟩
  have blank : ∀ b ∈ utf8 " ", Byte.isBlank b = true := by decide +kernel
  have no_operator : NoWord (utf8 "operator") text := by decide +kernel
  refine ⟨introduces, blank, no_operator, ?_⟩
  exact (name?_of_introduces introduces blank (utf8 "int operators)") no_operator).trans (by decide +kernel)

end Callable

end OutOfLine
