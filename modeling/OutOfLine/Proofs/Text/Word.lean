import Mathlib.Data.List.Infix
import OutOfLine.Member

/-! The words and signs of a text, in their order, and the template argument lists among them: how
many are open behind a token, and which tokens stand outside all of them. -/

namespace OutOfLine

namespace Bytes

/-- The words of a text, and its other bytes that are no white space. -/
def tokens : Bytes → List Bytes
  | [] => []
  | b :: rest =>
    if Byte.isIdent b then
      if rest.head?.any Byte.isIdent then (b :: (tokens rest).headD []) :: (tokens rest).tail
      else [b] :: tokens rest
    else if Byte.isWhite b then tokens rest
    else [b] :: tokens rest

/-- Whether no word goes on from the end of a text into another one. -/
def Apart (first second : Bytes) : Prop :=
  first.getLast?.any Byte.isIdent = true → second.head?.any Byte.isIdent = false

theorem not_white_of_ident {b : Byte} (ident : Byte.isIdent b = true) : Byte.isWhite b = false := by
  cases white : Byte.isWhite b with
  | false => rfl
  | true =>
    simp only [Byte.isWhite, Byte.isBlank, Bool.or_eq_true, beq_iff_eq] at white
    rcases white with ((((rfl | rfl) | rfl) | rfl) | rfl) | rfl <;> cases ident

theorem not_ident_of_white {b : Byte} (white : Byte.isWhite b = true) : Byte.isIdent b = false := by
  cases ident : Byte.isIdent b with
  | false => rfl
  | true => rw [not_white_of_ident ident] at white; cases white

theorem tokens_white {text : Bytes} (white : ∀ b ∈ text, Byte.isWhite b = true) (rest : Bytes) :
    tokens (text ++ rest) = tokens rest := by
  induction text with
  | nil => rfl
  | cons b text ih =>
    have own := white b (.head _)
    rw [List.cons_append, tokens, if_neg (by simp [not_ident_of_white own]), if_pos own]
    exact ih fun c member => white c (.tail _ member)

theorem exists_token {text : Bytes} (word : text.head?.any Byte.isIdent = true) :
    ∃ w ws, tokens text = w :: ws := by
  cases text with
  | nil => cases word
  | cons b rest =>
    rw [List.head?_cons, Option.any_some] at word
    rw [tokens, if_pos word]
    split <;> exact ⟨_, _, rfl⟩

theorem tokens_append {first second : Bytes} (apart : Apart first second) :
    tokens (first ++ second) = tokens first ++ tokens second := by
  induction first with
  | nil => rfl
  | cons b first ih =>
    cases first with
    | nil =>
      rw [List.singleton_append, tokens, tokens]
      by_cases ident : Byte.isIdent b = true
      · rw [apart (by simpa using ident)]
        simp [ident, tokens]
      · simp only [ident, Bool.false_eq_true, if_false]
        split <;> simp [tokens]
    | cons c first =>
      have ih := ih (by rwa [Apart, List.getLast?_cons_cons] at apart)
      rw [List.cons_append, tokens, tokens, ih, List.cons_append]
      by_cases ident : Byte.isIdent b = true
      · rw [if_pos ident, if_pos ident]
        by_cases word : (c :: first).head?.any Byte.isIdent = true
        · obtain ⟨w, ws, parts⟩ := exists_token word
          rw [if_pos word, if_pos (by simpa using word), parts]
          rfl
        · rw [if_neg word, if_neg (by simpa using word)]
          rfl
      · rw [if_neg ident, if_neg ident]
        split <;> rfl

theorem tokens_word {word : Bytes} (some_word : word ≠ []) (ident : ∀ b ∈ word, Byte.isIdent b = true) :
    tokens word = [word] := by
  induction word with
  | nil => exact absurd rfl some_word
  | cons b word ih =>
    rw [tokens, if_pos (ident b (.head _))]
    cases word with
    | nil => rfl
    | cons c word =>
      rw [if_pos (by simpa using ident c (.tail _ (.head _))),
        ih (by simp) fun d member => ident d (.tail _ member)]
      rfl

structure IsWord (word : Bytes) : Prop where
  some_byte : word ≠ []
  ident : ∀ b ∈ word, Byte.isIdent b = true

instance (word : Bytes) : Decidable word.IsWord :=
  decidable_of_iff (word.isEmpty = false ∧ word.all Byte.isIdent = true)
    ⟨fun ⟨some_byte, ident⟩ => ⟨List.isEmpty_eq_false_iff.mp some_byte, List.all_eq_true.mp ident⟩,
      fun is_word =>
        ⟨List.isEmpty_eq_false_iff.mpr is_word.some_byte, List.all_eq_true.mpr is_word.ident⟩⟩

namespace IsWord

variable {word : Bytes}

theorem first (is_word : word.IsWord) (more : Bytes) : (word ++ more).head?.any Byte.isIdent = true := by
  obtain ⟨some_byte, ident⟩ := is_word
  cases word with
  | nil => exact absurd rfl some_byte
  | cons b word => simpa using ident b (.head _)

theorem last (is_word : word.IsWord) : word.getLast?.any Byte.isIdent = true := by
  obtain ⟨some_byte, ident⟩ := is_word
  rw [List.getLast?_eq_some_getLast some_byte]
  exact ident _ (List.getLast_mem some_byte)

theorem tokens (is_word : word.IsWord) : tokens word = [word] :=
  tokens_word is_word.some_byte is_word.ident

theorem takeWhile (is_word : word.IsWord) {more : Bytes} (apart : Apart word more) :
    (word ++ more).takeWhile Byte.isIdent = word := by
  rw [List.takeWhile_append_of_pos is_word.ident]
  have stops := apart is_word.last
  cases more with
  | nil => simp
  | cons b more => simp_all

end IsWord

theorem Apart.white {white : Bytes} (some_white : white ≠ [])
    (only : ∀ b ∈ white, Byte.isWhite b = true) (first more : Bytes) : Apart first (white ++ more) := by
  intro _
  cases white with
  | nil => exact absurd rfl some_white
  | cons b white =>
    cases ident : Byte.isIdent b with
    | false => simpa using ident
    | true =>
      have own := only b (.head _)
      rw [not_white_of_ident ident] at own
      cases own

theorem Apart.nil_left (text : Bytes) : Apart [] text := fun ident => by cases ident

theorem Apart.cons {first second : Bytes} (apart : Apart first second) (some_first : first ≠ []) (b : Byte) :
    Apart (b :: first) second := by
  cases first with
  | nil => exact absurd rfl some_first
  | cons c first => rwa [Apart, List.getLast?_cons_cons]

theorem Apart.nil_right (text : Bytes) : Apart text [] := fun _ => rfl

theorem apart_append_left {first second : Bytes} (some_second : second ≠ []) (more : Bytes) :
    Apart (first ++ second) more ↔ Apart second more := by
  rw [Apart, Apart, List.getLast?_append_of_ne_nil _ some_second]

theorem apart_append_right {first : Bytes} (some_first : first ≠ []) (text second : Bytes) :
    Apart text (first ++ second) ↔ Apart text first := by
  rw [Apart, Apart, List.head?_append_of_ne_nil _ some_first]

theorem Apart.append {first second more : Bytes} (one : Apart first more) (two : Apart second more) :
    Apart (first ++ second) more := by
  by_cases none : second = []
  · rwa [none, List.append_nil]
  · exact (apart_append_left none more).mpr two

/-- What stands in front of a text that is apart from the rest is so, too. -/
theorem Apart.through {first second more : Bytes} (one : Apart first (second ++ more))
    (two : Apart second more) : Apart (first ++ second) more := by
  by_cases none : second = []
  · rw [none, List.nil_append] at one
    rwa [none, List.append_nil]
  · exact (apart_append_left none more).mpr two

theorem Apart.part {front first second back : Bytes} (apart : Apart (front ++ first) (second ++ back)) :
    Apart first second := by
  by_cases none : first = []
  · exact none ▸ .nil_left second
  by_cases none' : second = []
  · exact none' ▸ .nil_right first
  · rwa [apart_append_left none, apart_append_right none'] at apart

theorem Apart.behind_white {white : Bytes} (only : ∀ b ∈ white, Byte.isWhite b = true) (text : Bytes) :
    Apart white text := by
  intro last
  cases found : white.getLast? with
  | none => rw [found] at last; cases last
  | some b =>
    rw [found, Option.any_some] at last
    have own := only b (List.mem_of_getLast? found)
    rw [not_white_of_ident last] at own
    cases own

theorem tokens_signs {text : Bytes}
    (signs : ∀ b ∈ text, Byte.isIdent b = false ∧ Byte.isWhite b = false) :
    tokens text = text.map ([·]) := by
  induction text with
  | nil => rfl
  | cons b text ih =>
    obtain ⟨apart, solid⟩ := signs b (.head _)
    rw [tokens, apart, if_neg Bool.false_ne_true, solid, if_neg Bool.false_ne_true, List.map_cons,
      ih fun c member => signs c (.tail _ member)]

theorem not_isWord_sign {b : Byte} (apart : Byte.isIdent b = false) : ¬IsWord [b] := by
  intro word
  rw [word.ident b (.head _)] at apart
  cases apart

/-- A text can be cut between any two of its tokens. -/
theorem tokens_split {text : Bytes} {front back : List Bytes} (parts : tokens text = front ++ back) :
    ∃ first second, text = first ++ second ∧ Apart first second ∧ tokens first = front ∧
      tokens second = back := by
  induction text generalizing front with
  | nil =>
    obtain ⟨rfl, rfl⟩ := List.append_eq_nil_iff.mp parts.symm
    exact ⟨[], [], rfl, .nil_left [], rfl, rfl⟩
  | cons b text ih =>
    cases front with
    | nil => exact ⟨[], b :: text, rfl, .nil_left _, rfl, parts⟩
    | cons t front =>
      rw [tokens] at parts
      split at parts
      next ident =>
        split at parts
        next word =>
          obtain ⟨w, ws, own⟩ := exists_token word
          rw [own] at parts
          obtain ⟨rfl, rfl⟩ := List.cons.inj parts
          obtain ⟨first, second, rfl, apart, made, rest⟩ := @ih (w :: front) own
          have some_first : first ≠ [] := by rintro rfl; cases made
          refine ⟨b :: first, second, rfl, apart.cons some_first b, ?_, rest⟩
          rw [List.head?_append_of_ne_nil _ some_first] at word
          rw [tokens, if_pos ident, if_pos word, made]
          rfl
        next stops =>
          obtain ⟨rfl, more⟩ := List.cons.inj parts
          obtain ⟨first, second, rfl, apart, made, rest⟩ := ih more
          refine ⟨b :: first, second, rfl, ?_, ?_, rest⟩
          · cases first with
            | nil => exact fun _ => by simpa using stops
            | cons c first => exact apart.cons (by simp) b
          · rw [tokens, if_pos ident, if_neg ?_, made]
            cases first with
            | nil => simp
            | cons c first => simpa using stops
      next sign =>
        split at parts
        next white =>
          obtain ⟨first, second, rfl, apart, made, rest⟩ := @ih (t :: front) parts
          have some_first : first ≠ [] := by rintro rfl; cases made
          refine ⟨b :: first, second, rfl, apart.cons some_first b, ?_, rest⟩
          rw [tokens, if_neg sign, if_pos white, made]
        next solid =>
          obtain ⟨rfl, more⟩ := List.cons.inj parts
          obtain ⟨first, second, rfl, apart, made, rest⟩ := ih more
          refine ⟨b :: first, second, rfl, ?_, ?_, rest⟩
          · cases first with
            | nil => exact fun ident => absurd (by simpa using ident) sign
            | cons c first => exact apart.cons (by simp) b
          · rw [tokens, if_neg sign, if_neg solid, made]

/-- A text that begins with a byte of a word has the whole word as its first token. -/
theorem tokens_first {text : Bytes} (word : text.head?.any Byte.isIdent = true) :
    IsWord (text.takeWhile Byte.isIdent) ∧ Apart (text.takeWhile Byte.isIdent) (text.dropWhile Byte.isIdent) ∧
      tokens text = text.takeWhile Byte.isIdent :: tokens (text.dropWhile Byte.isIdent) := by
  have is_word : IsWord (text.takeWhile Byte.isIdent) := by
    refine ⟨?_, fun b member => List.all_eq_true.mp List.all_takeWhile b member⟩
    cases text with
    | nil => cases word
    | cons b rest => simp_all
  have apart : Apart (text.takeWhile Byte.isIdent) (text.dropWhile Byte.isIdent) := by
    intro _
    have stops := List.head?_dropWhile_not Byte.isIdent text
    cases rest : (text.dropWhile Byte.isIdent).head? with
    | none => rfl
    | some b => simpa [rest] using stops
  refine ⟨is_word, apart, ?_⟩
  conv_lhs => rw [← List.takeWhile_append_dropWhile (p := Byte.isIdent) (l := text)]
  rw [tokens_append apart, is_word.tokens]
  rfl

theorem exists_word {text word : Bytes} {words : List Bytes} (is_word : word.IsWord)
    (parts : tokens text = word :: words) : ∃ white rest, text = white ++ (word ++ rest) ∧
      (∀ b ∈ white, Byte.isWhite b = true) ∧ Apart word rest ∧ tokens rest = words := by
  have white : ∀ b ∈ text.takeWhile Byte.isWhite, Byte.isWhite b = true :=
    fun b member => List.all_eq_true.mp List.all_takeWhile b member
  have whole := List.takeWhile_append_dropWhile (p := Byte.isWhite) (l := text)
  have stops := List.head?_dropWhile_not Byte.isWhite text
  generalize text.dropWhile Byte.isWhite = rest at whole stops
  rw [← whole, tokens_white white] at parts
  have first : rest.head?.any Byte.isIdent = true := by
    cases rest with
    | nil => cases parts
    | cons b rest =>
      cases ident : Byte.isIdent b with
      | true => simpa using ident
      | false =>
        rw [tokens, if_neg (by simp [ident]), if_neg (by simpa using stops)] at parts
        obtain ⟨rfl, _⟩ := List.cons.inj parts
        rw [is_word.ident b (.head _)] at ident
        cases ident
  obtain ⟨_, apart, own⟩ := tokens_first first
  obtain ⟨rfl, rfl⟩ := List.cons.inj (own.symm.trans parts)
  exact ⟨_, _, by rw [List.takeWhile_append_dropWhile, whole], white, apart, rfl⟩

/-- The lists that are open behind a token, if `depth` are in front of it. A closing bracket too many counts
for nothing. -/
def angleStep (depth : Nat) (token : Bytes) : Nat :=
  if token = [Byte.less] then depth + 1
  else if token = [Byte.greater] then depth - 1
  else depth

def angleDepth (depth : Nat) (tokens : List Bytes) : Nat := tokens.foldl angleStep depth

def AnglesClose (depth : Nat) : List Bytes → Prop
  | [] => depth = 0
  | t :: ts => (t = [Byte.greater] → 0 < depth) ∧ AnglesClose (angleStep depth t) ts

def isAngle (token : Bytes) : Bool := token == [Byte.less] || token == [Byte.greater]

/-- The tokens outside all template argument lists, but for the brackets. -/
def outside (depth : Nat) : List Bytes → List Bytes
  | [] => []
  | t :: ts => (if depth = 0 ∧ isAngle t = false then [t] else []) ++ outside (angleStep depth t) ts

instance decidableAnglesClose : (depth : Nat) → (ts : List Bytes) → Decidable (AnglesClose depth ts)
  | depth, [] => inferInstanceAs (Decidable (depth = 0))
  | depth, t :: ts =>
    have := decidableAnglesClose (angleStep depth t) ts
    inferInstanceAs (Decidable (_ ∧ _))

variable {depth : Nat} {b : Byte} {t text word : Bytes} {ts us : List Bytes}

theorem angleStep_of_plain (plain : isAngle t = false) (depth : Nat) : angleStep depth t = depth := by
  simp only [isAngle, Bool.or_eq_false_iff, beq_eq_false_iff_ne] at plain
  rw [angleStep, if_neg plain.1, if_neg plain.2]

theorem isAngle_of_ident (ident : t.head?.any Byte.isIdent = true) : isAngle t = false := by
  rw [Bool.eq_false_iff, isAngle, Ne, Bool.or_eq_true, beq_iff_eq, beq_iff_eq]
  rintro (rfl | rfl) <;> cases ident

theorem angleDepth_append (depth : Nat) (ts us : List Bytes) :
    angleDepth depth (ts ++ us) = angleDepth (angleDepth depth ts) us := List.foldl_append

theorem outside_append (depth : Nat) (ts us : List Bytes) :
    outside depth (ts ++ us) = outside depth ts ++ outside (angleDepth depth ts) us := by
  induction ts generalizing depth with
  | nil => rfl
  | cons t ts ih => rw [List.cons_append, outside, outside, ih, List.append_assoc]; rfl

theorem count_outside_cons (plain : isAngle t = false) (depth : Nat) (ts : List Bytes) (word : Bytes) :
    (outside depth (t :: ts)).count word =
      (if depth = 0 ∧ t = word then 1 else 0) + (outside depth ts).count word := by
  rw [outside, List.count_append, angleStep_of_plain plain]
  congr 1
  by_cases top : depth = 0 <;> simp [top, plain, List.count_singleton]

theorem tokens_cons_cases (b : Byte) (text : Bytes) :
    (Byte.isWhite b = true ∧ tokens (b :: text) = tokens text) ∨
      tokens (b :: text) = [b] :: tokens text ∨
      Byte.isIdent b = true ∧ ∃ t ts, tokens text = t :: ts ∧ t.head?.any Byte.isIdent = true ∧
        tokens (b :: text) = (b :: t) :: ts := by
  rw [tokens]
  split
  next ident =>
    split
    next word =>
      obtain ⟨is_word, _, parts⟩ := tokens_first word
      refine .inr (.inr ⟨ident, _, _, parts, ?_, by rw [parts]; rfl⟩)
      simpa using is_word.first []
    next => exact .inr (.inl rfl)
  next =>
    split
    next white => exact .inl ⟨white, rfl⟩
    next => exact .inr (.inl rfl)

theorem isAngle_of_white (white : Byte.isWhite b = true) : isAngle [b] = false := by
  rw [Bool.eq_false_iff, isAngle, Ne, Bool.or_eq_true, beq_iff_eq, beq_iff_eq]
  rintro (same | same) <;> rw [(List.cons.inj same).1] at white <;> cases white

theorem angleDepth_cons (depth : Nat) (b : Byte) (text : Bytes) :
    angleDepth depth (tokens (b :: text)) = angleDepth (angleStep depth [b]) (tokens text) := by
  rcases tokens_cons_cases b text with ⟨white, same⟩ | same | ⟨ident, t, ts, rest, word, same⟩
  · rw [same, angleStep_of_plain (isAngle_of_white white)]
  · rw [same]
    rfl
  · have first : isAngle (b :: t) = false := isAngle_of_ident (by simpa using ident)
    have single : isAngle [b] = false := isAngle_of_ident (by simpa using ident)
    rw [same, rest, angleStep_of_plain single, angleDepth, List.foldl_cons, angleStep_of_plain first, angleDepth,
      List.foldl_cons, angleStep_of_plain (isAngle_of_ident word)]

theorem anglesClose_cons : AnglesClose depth (tokens (b :: text)) ↔
    (b = Byte.greater → 0 < depth) ∧ AnglesClose (angleStep depth [b]) (tokens text) := by
  have plain {t : Bytes} (plain : isAngle t = false) (ts : List Bytes) :
      AnglesClose depth (t :: ts) ↔ AnglesClose depth ts := by
    rw [AnglesClose, angleStep_of_plain plain, and_iff_right]
    rintro rfl
    cases plain
  have other (plain : isAngle [b] = false) : b ≠ Byte.greater := by
    rintro rfl
    cases plain
  rcases tokens_cons_cases b text with ⟨white, same⟩ | same | ⟨ident, t, ts, rest, word, same⟩
  · rw [same, angleStep_of_plain (isAngle_of_white white)]
    exact (and_iff_right fun greater => absurd greater (other (isAngle_of_white white))).symm
  · rw [same, AnglesClose]
    simp
  · have first : isAngle (b :: t) = false := isAngle_of_ident (by simpa using ident)
    have single : isAngle [b] = false := isAngle_of_ident (by simpa using ident)
    rw [same, rest, angleStep_of_plain single, plain first, plain (isAngle_of_ident word)]
    exact (and_iff_right fun greater => absurd greater (other single)).symm

/-- In a list a byte that is no bracket makes no difference. -/
theorem outside_cons_inside (positive : depth ≠ 0) (single : isAngle [b] = false) :
    outside depth (tokens (b :: text)) = outside depth (tokens text) := by
  have skip {t : Bytes} (plain : isAngle t = false) (ts : List Bytes) :
      outside depth (t :: ts) = outside depth ts := by
    rw [outside, if_neg (fun zero => positive zero.1), angleStep_of_plain plain]
    rfl
  rcases tokens_cons_cases b text with ⟨_, same⟩ | same | ⟨ident, t, ts, rest, word, same⟩
  · rw [same]
  · rw [same, skip single]
  · rw [same, rest, skip (isAngle_of_ident (by simpa using ident)), skip (isAngle_of_ident word)]

end Bytes

namespace Callable
open Bytes

variable {angle : Nat} {word : Bytes}

/-- A word that has been read outside all lists is a token of its own there. -/
theorem close_eq (at_top : angle = 0 ∨ word = []) (ident : ∀ b ∈ word, Byte.isIdent b = true)
    (words : List Bytes) : close word words =
      (outside angle (tokens word.reverse)).filter (·.head?.any Byte.isIdent) ++ words ∧
      angleDepth angle (tokens word.reverse) = angle := by
  unfold close
  split
  next none => exact none ▸ ⟨rfl, rfl⟩
  next some_word =>
    have is_word : IsWord word.reverse := ⟨by simpa using some_word, by simpa using ident⟩
    have first := is_word.first []
    rw [List.append_nil] at first
    have plain := isAngle_of_ident first
    rw [is_word.tokens]
    refine ⟨?_, angleStep_of_plain plain angle⟩
    rw [outside, if_pos ⟨at_top.resolve_right some_word, plain⟩, outside, List.append_nil,
      List.filter_eq_self.mpr (by simpa using first)]
    rfl

/-- A scan for words finds those among the tokens outside all lists. -/
theorem wordsFrom_eq (at_top : angle = 0 ∨ word = []) (ident : ∀ b ∈ word, Byte.isIdent b = true)
    (text : Bytes) : wordsFrom angle word text =
      (outside angle (tokens (word.reverse ++ text))).filter (·.head?.any Byte.isIdent) := by
  induction text generalizing angle word with
  | nil =>
    rw [wordsFrom, (close_eq at_top ident []).1, List.append_nil, List.append_nil]
  | cons b text ih =>
    have behind (sign : Byte.isIdent b = false) :
        (outside angle (tokens (word.reverse ++ b :: text))).filter (·.head?.any Byte.isIdent) =
          close word ((outside angle (tokens (b :: text))).filter (·.head?.any Byte.isIdent)) := by
      have apart : Apart word.reverse (b :: text) := fun _ => by simpa using sign
      rw [tokens_append apart, outside_append, List.filter_append, (close_eq at_top ident []).2,
        (close_eq at_top ident _).1]
    have angle_ (depth : Nat) (bracket : isAngle [b] = true) (sign : Byte.isIdent b = false)
        (solid : Byte.isWhite b = false) : (outside depth (tokens (b :: text))).filter (·.head?.any Byte.isIdent) =
          wordsFrom (angleStep depth [b]) [] text := by
      rw [ih (.inr rfl) (by simp), tokens, if_neg (by simp [sign]), if_neg (by simp [solid]), outside,
        if_neg (by simp [bracket])]
      rfl
    rw [wordsFrom]
    split
    next less =>
      subst less
      rw [behind rfl, angle_ angle rfl rfl rfl]
      rfl
    split
    next greater =>
      subst greater
      rw [behind rfl, angle_ angle rfl rfl rfl]
      rfl
    next no_less no_greater =>
      have plain : isAngle [b] = false := by simp [isAngle, no_less, no_greater]
      split
      next goes_on =>
        rw [ih (.inl goes_on.2) (List.forall_mem_cons.mpr ⟨goes_on.1, ident⟩), List.reverse_cons,
          List.append_assoc]
        rfl
      next stops =>
        rw [ih (.inr rfl) (by simp)]
        by_cases word_byte : Byte.isIdent b = true
        · have deep : angle ≠ 0 := fun zero => stops ⟨word_byte, zero⟩
          obtain rfl := at_top.resolve_left deep
          rw [close, if_pos rfl, List.reverse_nil, List.nil_append, List.nil_append,
            outside_cons_inside deep plain]
        · rw [Bool.not_eq_true] at word_byte
          rw [behind word_byte, List.reverse_nil, List.nil_append]
          congr 1
          rcases tokens_cons_cases b text with ⟨_, same⟩ | same | ⟨ident, _⟩
          · rw [same]
          · rw [same, outside, angleStep_of_plain plain, List.filter_append]
            split <;> simp [word_byte]
          · rw [ident] at word_byte
            cases word_byte

theorem mem_words_iff (is_word : word.IsWord) (text : Bytes) :
    word ∈ words text ↔ word ∈ outside 0 (tokens text) := by
  have first := is_word.first []
  rw [List.append_nil] at first
  rw [words, wordsFrom_eq (.inl rfl) (by simp), List.mem_filter, List.reverse_nil, List.nil_append,
    and_iff_left first]

end Callable

end OutOfLine
