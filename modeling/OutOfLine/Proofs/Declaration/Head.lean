import OutOfLine.Proofs.Declaration

/-! The heads of classes in a text. A head stands where two neighbouring tokens are a keyword and the
name, so that texts without a head stay so when they are put one behind the other, unless the first one
ends with a keyword and the second one begins with the name. -/
namespace OutOfLine
open Bytes (Apart tokens)

namespace Declaration

variable {keywords : List Bytes} {name : Bytes}

/-- Whether a text that follows `front` begins with a keyword, white space and the name, as whole words
of `length` bytes. -/
def HeadAt (keywords : List Bytes) (name front text : Bytes) (length : Nat) : Prop :=
  ∃ k ∈ keywords, ∃ white back, text = k ++ (white ++ (name ++ back)) ∧ white ≠ [] ∧
    (∀ b ∈ white, Byte.isWhite b = true) ∧ Apart front k ∧ Apart name back ∧
    length = k.length + white.length + name.length

theorem isWordBoundary_of_first {before : Option Byte} {text : Bytes}
    (word : text.head?.any Byte.isIdent = true) :
    isWordBoundary before text.head? = !before.any Byte.isIdent := by
  simp [isWordBoundary, word]

theorem isWordBoundary_of_last {text : Bytes} {after : Option Byte}
    (word : text.getLast?.any Byte.isIdent = true) :
    isWordBoundary text.getLast? after = !after.any Byte.isIdent := by
  simp [isWordBoundary, word]

theorem blanksBefore?_eq_some {text : Bytes} {blanks : Nat} (named : name.IsWord)
    (found : blanksBefore? name text = some blanks) : ∃ white back, text = white ++ (name ++ back) ∧
      white ≠ [] ∧ (∀ b ∈ white, Byte.isWhite b = true) ∧ Apart name back ∧ blanks = white.length := by
  have fits := List.find?_some found
  obtain ⟨less, among, rfl⟩ := List.mem_map.mp (List.mem_of_find?_eq_some found)
  rw [List.mem_reverse, List.mem_range] at among
  rw [Bool.and_eq_true, List.isPrefixOf_iff_prefix] at fits
  obtain ⟨⟨back, rest⟩, boundary⟩ := fits
  have white := (List.takeWhile_prefix (p := Byte.isWhite) (l := text))
  have size := white.length_le
  have short : text.take (less + 1) = (text.takeWhile Byte.isWhite).take (less + 1) := by
    rw [List.prefix_iff_eq_take.mp white, List.take_take, Nat.min_eq_left among]
  refine ⟨text.take (less + 1), back, by rw [rest, List.take_append_drop], ?_, ?_, fun _ => ?_, ?_⟩
  · rw [ne_eq, List.take_eq_nil_iff]
    rintro (none | rfl)
    · cases none
    · cases among
  · intro b member
    rw [short] at member
    exact List.all_eq_true.mp List.all_takeWhile b (List.mem_of_mem_take member)
  · rw [← List.drop_drop, ← rest, List.drop_left, isWordBoundary_of_last named.last] at boundary
    simpa using boundary
  · rw [List.length_take]
    omega

theorem exists_blanksBefore? {white back : Bytes} (named : name.IsWord) (some_white : white ≠ [])
    (only : ∀ b ∈ white, Byte.isWhite b = true) (apart : Apart name back) :
    ∃ blanks, blanksBefore? name (white ++ (name ++ back)) = some blanks := by
  apply Option.isSome_iff_exists.mp
  have positive := List.length_pos_iff.mpr some_white
  rw [blanksBefore?, List.find?_isSome]
  refine ⟨white.length, List.mem_map.mpr ⟨white.length - 1, ?_, by omega⟩, ?_⟩
  · rw [List.mem_reverse, List.mem_range, List.takeWhile_append_of_pos only, List.length_append]
    omega
  · rw [List.drop_left, ← List.drop_drop, List.drop_left, List.drop_left, Bool.and_eq_true,
      isWordBoundary_of_last named.last, apart named.last]
    exact ⟨List.isPrefixOf_iff_prefix.mpr (List.prefix_append ..), rfl⟩

theorem headAt_of_head (words : ∀ k ∈ keywords, k.IsWord) (named : name.IsWord) {front text : Bytes}
    {n : Nat} (taken : head keywords name front.getLast? text = some (n, ())) :
    HeadAt keywords name front text n := by
  unfold head at taken
  split at taken
  next boundary =>
    obtain ⟨k, known, fits⟩ := List.exists_of_findSome?_eq_some taken
    simp only [Option.bind_eq_bind, Option.bind_eq_some_iff] at fits
    obtain ⟨rest, begins, blanks, found, same⟩ := fits
    obtain rfl := Bytes.eq_of_dropHead? begins
    obtain ⟨white, back, rfl, some_white, only, apart, rfl⟩ := blanksBefore?_eq_some named found
    rw [isWordBoundary_of_first ((words k known).first _)] at boundary
    refine ⟨k, known, white, back, rfl, some_white, only, fun last => ?_, apart, ?_⟩
    · rw [last] at boundary
      cases boundary
    · cases same
      rfl
  next => cases taken

/-- Only one head begins at an offset. -/
theorem HeadAt.unique (words : ∀ k ∈ keywords, k.IsWord) (named : name.IsWord) {front text : Bytes}
    {n n' : Nat} (one : HeadAt keywords name front text n) (two : HeadAt keywords name front text n') :
    n = n' := by
  obtain ⟨k, known, white, back, rfl, some_white, only, _, _, rfl⟩ := one
  obtain ⟨k', known', white', back', same, some_white', only', _, _, rfl⟩ := two
  have white_of {white back : Bytes} (only : ∀ b ∈ white, Byte.isWhite b = true) :
      (white ++ (name ++ back)).takeWhile Byte.isWhite = white := by
    rw [List.takeWhile_append_of_pos only]
    cases text : name with
    | nil => exact absurd text named.some_byte
    | cons b rest =>
      have solid := Bytes.not_white_of_ident (named.ident b (by rw [text]; exact .head _))
      simp [solid]
  have words_eq := congrArg (List.takeWhile Byte.isIdent) same
  rw [(words k known).takeWhile (.white some_white only _ _),
    (words k' known').takeWhile (.white some_white' only' _ _)] at words_eq
  subst words_eq
  have white_eq := congrArg (List.takeWhile Byte.isWhite) (List.append_cancel_left same)
  rw [white_of only, white_of only'] at white_eq
  rw [white_eq]

theorem head_of_headAt (words : ∀ k ∈ keywords, k.IsWord) (named : name.IsWord) {front text : Bytes}
    {n : Nat} (here : HeadAt keywords name front text n) :
    head keywords name front.getLast? text = some (n, ()) := by
  have taken : (head keywords name front.getLast? text).isSome = true := by
    obtain ⟨k, known, white, back, rfl, some_white, only, apart, ends, _⟩ := here
    obtain ⟨blanks, found⟩ := exists_blanksBefore? named some_white only ends
    have before : front.getLast?.any Byte.isIdent = false := by
      cases last : front.getLast?.any Byte.isIdent with
      | false => rfl
      | true =>
        have first := (words k known).first []
        rw [List.append_nil, apart last] at first
        cases first
    have begins : Bytes.dropHead? k (k ++ (white ++ (name ++ back))) = some (white ++ (name ++ back)) := by
      rw [Bytes.dropHead?, if_pos (List.isPrefixOf_iff_prefix.mpr (List.prefix_append ..)), List.drop_left]
    rw [head, isWordBoundary_of_first ((words k known).first _), before, Bool.not_false, if_pos rfl,
      List.findSome?_isSome_iff]
    exact ⟨k, known, by simp [begins, found]⟩
  obtain ⟨⟨n', _⟩, taken⟩ := Option.isSome_iff_exists.mp taken
  rw [taken, (headAt_of_head words named taken).unique words named here]

/-! ### Heads among the tokens -/

/-- Whether no keyword stands right in front of the name. -/
def Headless (keywords : List Bytes) (name : Bytes) (tokens : List Bytes) : Prop :=
  ∀ k ∈ keywords, ¬[k, name] <:+: tokens

def Ends (keywords : List Bytes) (tokens : List Bytes) : Prop := ∃ k ∈ keywords, tokens.getLast? = some k

instance (keywords : List Bytes) (tokens : List Bytes) : Decidable (Ends keywords tokens) :=
  inferInstanceAs (Decidable (∃ k ∈ keywords, _))

theorem Headless.within {first second : List Bytes} (headless : Headless keywords name second)
    (inside : first <:+: second) : Headless keywords name first :=
  fun k known pair => headless k known (pair.trans inside)

/-- Put one behind the other, tokens make no head but of a keyword at the end of the first ones. -/
theorem Headless.append {first second : List Bytes} (one : Headless keywords name first)
    (two : Headless keywords name second)
    (seam : ¬Ends keywords first ∨ second.head? ≠ some name) :
    Headless keywords name (first ++ second) := by
  rintro k known ⟨before, after, whole⟩
  rw [List.append_assoc] at whole
  -- The pair lies in the first tokens, in the second ones, or has a part in each.
  rcases List.append_eq_append_iff.mp whole with ⟨middle, rfl, pair⟩ | ⟨middle, rfl, rfl⟩
  · match middle with
    | [] => exact two k known ⟨[], after, by simpa using pair⟩
    | [t] =>
      obtain ⟨rfl, rfl⟩ := List.cons.inj pair
      rcases seam with ends | begins
      · exact ends ⟨k, known, by simp⟩
      · simp at begins
    | t :: u :: middle =>
      simp only [List.cons_append, List.nil_append, List.cons.injEq] at pair
      obtain ⟨rfl, rfl, _⟩ := pair
      exact one k known ⟨before, middle, by simp⟩
  · exact two k known ⟨middle, after, by simp⟩

theorem headless_singleton (t : Bytes) : Headless keywords name [t] := by
  intro k _ pair
  have := pair.length_le
  simp at this

/-- Tokens that make no head, whatever follows them. -/
structure MakesNoHead (keywords : List Bytes) (name : Bytes) (tokens : List Bytes) : Prop where
  headless : Headless keywords name tokens
  ends : ¬Ends keywords tokens

namespace MakesNoHead

theorem nil : MakesNoHead keywords name [] where
  headless k _ pair := by cases List.eq_nil_of_infix_nil pair
  ends := by rintro ⟨k, _, last⟩; cases last

theorem headless_append {first second : List Bytes} (one : MakesNoHead keywords name first)
    (two : Headless keywords name second) : Headless keywords name (first ++ second) :=
  one.headless.append two (.inl one.ends)

theorem append {first second : List Bytes} (one : MakesNoHead keywords name first)
    (two : MakesNoHead keywords name second) : MakesNoHead keywords name (first ++ second) where
  headless := one.headless_append two.headless
  ends := by
    rintro ⟨k, known, last⟩
    by_cases none : second = []
    · rw [none, List.append_nil] at last
      exact one.ends ⟨k, known, last⟩
    · rw [List.getLast?_append_of_ne_nil _ none] at last
      exact two.ends ⟨k, known, last⟩

theorem flatMap {items : List α} {tokens : α → List Bytes}
    (each : ∀ x ∈ items, MakesNoHead keywords name (tokens x)) : MakesNoHead keywords name (items.flatMap tokens) := by
  induction items with
  | nil => exact nil
  | cons x items ih =>
    rw [List.flatMap_cons]
    exact (each x (.head _)).append (ih fun y member => each y (.tail _ member))

theorem singleton {t : Bytes} (other : t ∉ keywords) : MakesNoHead keywords name [t] where
  headless := headless_singleton t
  ends := by
    rintro ⟨k, known, last⟩
    obtain rfl := Option.some.inj last
    exact other known

/-- Tokens without a head in front of ones that make none, if these do not begin with the name. -/
theorem prepend {first second : List Bytes} (one : Headless keywords name first)
    (two : MakesNoHead keywords name second) (some_second : second ≠ []) (begins : second.head? ≠ some name) :
    MakesNoHead keywords name (first ++ second) where
  headless := one.append two.headless (.inr begins)
  ends := by
    rintro ⟨k, known, last⟩
    rw [List.getLast?_append_of_ne_nil _ some_second] at last
    exact two.ends ⟨k, known, last⟩

theorem of_signs (words : ∀ k ∈ keywords, k.IsWord) (named : name.IsWord) {ts : List Bytes}
    (signs : ∀ t ∈ ts, ¬t.IsWord) : MakesNoHead keywords name ts where
  headless k _ pair := signs name (pair.subset (by simp)) named
  ends := by
    rintro ⟨k, known, last⟩
    exact signs k (List.mem_of_getLast? last) (words k known)

/-- A word that signs follow makes no head. -/
theorem cons (words : ∀ k ∈ keywords, k.IsWord) (named : name.IsWord) {ts : List Bytes}
    (signs : ∀ t ∈ ts, ¬t.IsWord) (some_sign : ts ≠ []) (t : Bytes) : MakesNoHead keywords name (t :: ts) where
  headless := by
    refine (headless_singleton t).append (of_signs words named signs).headless (.inr fun first => ?_)
    exact signs name (List.mem_of_head? first) named
  ends := by
    rintro ⟨k, known, last⟩
    rw [List.getLast?_cons_of_ne_nil some_sign] at last
    exact signs k (List.mem_of_getLast? last) (words k known)

end MakesNoHead

theorem Ends.of_append {first second : List Bytes} (ends : Ends keywords second) :
    Ends keywords (first ++ second) := by
  obtain ⟨k, known, last⟩ := ends
  refine ⟨k, known, ?_⟩
  rw [List.getLast?_append, last]
  rfl

variable {front text more : Bytes} {n : Nat}

theorem HeadAt.drop (here : HeadAt keywords name front text n) :
    ∃ k ∈ keywords, ∃ white, text = k ++ (white ++ (name ++ text.drop n)) ∧ white ≠ [] ∧
      (∀ b ∈ white, Byte.isWhite b = true) ∧ Apart front k ∧ Apart name (text.drop n) ∧
      n = k.length + white.length + name.length := by
  obtain ⟨k, known, white, back, rfl, some_white, only, apart, ends, rfl⟩ := here
  have rest : (k ++ (white ++ (name ++ back))).drop (k.length + white.length + name.length) = back := by
    rw [← List.drop_drop, ← List.drop_drop, List.drop_left, List.drop_left, List.drop_left]
  exact ⟨k, known, white, by rw [rest], some_white, only, apart, by rwa [rest], rfl⟩

theorem HeadAt.apart_front (words : ∀ k ∈ keywords, k.IsWord) (here : HeadAt keywords name front text n) :
    Apart front text := by
  obtain ⟨k, known, _, _, rfl, _, _, apart, _⟩ := here
  intro last
  have first := (words k known).first []
  rw [List.append_nil, apart last] at first
  cases first

theorem HeadAt.bounds (here : HeadAt keywords name front text n) : 0 < n ∧ n ≤ text.length := by
  obtain ⟨k, known, white, back, rfl, some_white, _, _, _, rfl⟩ := here
  have := List.length_pos_iff.mpr some_white
  simp only [List.length_append]
  omega

theorem HeadAt.apart_behind (named : name.IsWord) (here : HeadAt keywords name front text n) :
    Apart (front ++ text.take n) (text.drop n) := by
  obtain ⟨k, _, white, whole, _, _, _, ends, rfl⟩ := here.drop
  have taken : text.take (k.length + white.length + name.length) = (k ++ white) ++ name := by
    rw [whole, ← List.append_assoc, ← List.append_assoc]
    exact List.take_left' (by simp [Nat.add_assoc])
  rw [taken, ← List.append_assoc, Bytes.apart_append_left named.some_byte]
  exact ends

theorem tokens_of_headAt (words : ∀ k ∈ keywords, k.IsWord) (named : name.IsWord)
    (here : HeadAt keywords name front text n) :
    ∃ k ∈ keywords, tokens (front ++ text) = tokens front ++ ([k, name] ++ tokens (text.drop n)) := by
  have apart := here.apart_front words
  obtain ⟨k, known, white, whole, some_white, only, _, ends, _⟩ := here.drop
  generalize text.drop n = back at whole ends
  subst whole
  refine ⟨k, known, ?_⟩
  rw [Bytes.tokens_append apart, Bytes.tokens_append (.white some_white only _ _),
    Bytes.tokens_white only, Bytes.tokens_append ends, (words k known).tokens, named.tokens]
  rfl

/-- Where a keyword is the token in front of the name, a head begins. -/
theorem exists_headAt (words : ∀ k ∈ keywords, k.IsWord) (named : name.IsWord)
    (here : ¬Headless keywords name (tokens text)) :
    ∃ front rest n, text = front ++ rest ∧ HeadAt keywords name front rest n := by
  simp only [Headless, not_forall, not_not] at here
  obtain ⟨k, known, before, after, pair⟩ := here
  rw [List.append_assoc] at pair
  obtain ⟨front, rest, rfl, apart, _, parts⟩ := Bytes.tokens_split pair.symm
  obtain ⟨white, rest, rfl, only, ends, parts⟩ := Bytes.exists_word (words k known) parts
  obtain ⟨blanks, back, rfl, blank, stops, _⟩ := Bytes.exists_word named parts
  have some_blank : blanks ≠ [] := by
    rintro rfl
    have first := named.first back
    rw [List.nil_append] at ends
    rw [ends (words k known).last] at first
    cases first
  refine ⟨front ++ white, k ++ (blanks ++ (name ++ back)), _, by simp, k, known, blanks, back, rfl,
    some_blank, blank, ?_, stops, rfl⟩
  by_cases none : white = []
  · rw [none, List.nil_append, Bytes.apart_append_right (words k known).some_byte] at apart
    rwa [none, List.append_nil]
  · exact (Bytes.apart_append_left none _).mpr (.behind_white only k)

theorem HeadAt.append (named : name.IsWord) (here : HeadAt keywords name front text n) (apart : Apart text more) :
    HeadAt keywords name front (text ++ more) n := by
  obtain ⟨k, known, white, back, rfl, some_white, only, before, ends, rfl⟩ := here
  refine ⟨k, known, white, back ++ more, by simp, some_white, only, before, ?_, rfl⟩
  by_cases none : back = []
  · rw [none, List.append_nil, ← List.append_assoc, Bytes.apart_append_left named.some_byte] at apart
    rwa [none]
  · exact (Bytes.apart_append_right none _ _).mpr ends

theorem HeadAt.of_append (here : HeadAt keywords name front (text ++ more) n) (inside : n ≤ text.length) :
    HeadAt keywords name front text n := by
  obtain ⟨k, known, white, back, whole, some_white, only, before, ends, rfl⟩ := here
  rw [← List.append_assoc, ← List.append_assoc] at whole
  have size : (k ++ white ++ name).length ≤ text.length := by simpa [Nat.add_assoc] using inside
  obtain ⟨rest, rfl⟩ := List.prefix_of_prefix_length_le (List.prefix_append _ _)
    (whole ▸ List.prefix_append _ _) size
  rw [List.append_assoc, List.append_cancel_left_eq] at whole
  refine ⟨k, known, white, rest, by simp, some_white, only, before, ?_, rfl⟩
  subst whole
  exact @Apart.part [] _ _ _ ends

theorem HeadAt.move {front' : Bytes} (here : HeadAt keywords name front text n)
    (apart : Apart front' text) : HeadAt keywords name front' text n := by
  obtain ⟨k, known, white, back, rfl, some_white, only, _, ends, rfl⟩ := here
  refine ⟨k, known, white, back, rfl, some_white, only, ?_, ends, rfl⟩
  by_cases empty : k = []
  · exact empty ▸ .nil_right front'
  · exact (Bytes.apart_append_right empty _ _).mp apart

theorem HeadAt.of_prepend (here : HeadAt keywords name (more ++ front) text n) :
    HeadAt keywords name front text n := by
  obtain ⟨k, known, white, back, rfl, some_white, only, before, ends, rfl⟩ := here
  refine ⟨k, known, white, back, rfl, some_white, only, ?_, ends, rfl⟩
  by_cases none : front = []
  · exact none ▸ .nil_left k
  · exact (Bytes.apart_append_left none _).mp before

/-! ### Heads among the matches -/

theorem previous_append (front text : Bytes) :
    Recogniser.previous none (front ++ text) front.length = front.getLast? := by
  rw [Recogniser.previous]
  split
  next none =>
    rw [List.eq_nil_of_length_eq_zero none]
    rfl
  next =>
    rw [List.getElem?_append_left (by omega), List.getLast?_eq_getElem?]

theorem headAt_of_mem_matches (words : ∀ k ∈ keywords, k.IsWord) (named : name.IsWord) {m : Span × Unit}
    (member : m ∈ (head keywords name).matches text) : ∃ front rest n, text = front ++ rest ∧
      HeadAt keywords name front rest n ∧ m.1 = ⟨front.length, front.length + n⟩ := by
  obtain ⟨n, inside, taken, stop⟩ := Recogniser.taken_of_mem_matches member
  have length : (text.take m.1.start).length = m.1.start := by rw [List.length_take]; omega
  have before := previous_append (text.take m.1.start) (text.drop m.1.start)
  rw [List.take_append_drop, length] at before
  rw [before] at taken
  refine ⟨_, _, n, (List.take_append_drop m.1.start text).symm, headAt_of_head words named taken, ?_⟩
  rw [length, ← stop]

theorem matches_of_headless (words : ∀ k ∈ keywords, k.IsWord) (named : name.IsWord)
    (headless : Headless keywords name (tokens text)) : (head keywords name).matches text = [] := by
  rw [List.eq_nil_iff_forall_not_mem]
  intro m member
  obtain ⟨front, rest, n, rfl, here, _⟩ := headAt_of_mem_matches words named member
  obtain ⟨k, known, parts⟩ := tokens_of_headAt words named here
  exact headless k known ⟨_, _, by rw [parts, List.append_assoc]⟩

/-- Where a head begins, so does a match, unless it lies in another one. -/
theorem exists_match (words : ∀ k ∈ keywords, k.IsWord) (named : name.IsWord)
    (here : HeadAt keywords name front text n) : ∃ m ∈ (head keywords name).matches (front ++ text),
      m.1.start = front.length ∨ m.1.start < front.length ∧ front.length < m.1.stop := by
  have some_text := here.bounds
  have taken : (head keywords name (Recogniser.previous none (front ++ text) front.length)
      ((front ++ text).drop front.length)).isSome = true := by
    rw [previous_append, List.drop_left, head_of_headAt words named here]
    rfl
  obtain ⟨m, member, place⟩ : ∃ m ∈ (head keywords name).matches (front ++ text),
      m.1.start = 0 + front.length ∨ m.1.start < 0 + front.length ∧ 0 + front.length < m.1.stop :=
    Recogniser.covered_of_taken (Nat.zero_le _) (by rw [List.length_append]; omega) taken
  rw [Nat.zero_add] at place
  exact ⟨m, member, place⟩

theorem headless_around (words : ∀ k ∈ keywords, k.IsWord) (named : name.IsWord)
    (only : (head keywords name).matches (front ++ text) = [(⟨front.length, front.length + n⟩, ())])
    (here : HeadAt keywords name front text n) :
    Headless keywords name (tokens front) ∧ Headless keywords name (tokens (text.drop n)) := by
  constructor
  · by_contra some_head
    obtain ⟨first, second, n', rfl, inside⟩ := exists_headAt words named some_head
    have bounds := inside.bounds
    have apart := here.apart_front words
    rw [Bytes.apart_append_left (List.length_pos_iff.mp (by omega))] at apart
    obtain ⟨m, member, place⟩ := exists_match words named (inside.append named apart)
    rw [← List.append_assoc, only, List.mem_singleton] at member
    subst member
    simp only [List.length_append] at place
    omega
  · by_contra some_head
    obtain ⟨first, second, n', parts, inside⟩ := exists_headAt words named some_head
    have bounds := here.bounds
    have apart := here.apart_behind named
    rw [parts] at apart
    obtain ⟨m, member, place⟩ := exists_match words named (inside.move (apart.through (inside.apart_front words)))
    rw [List.append_assoc, List.append_assoc, ← parts, List.take_append_drop, only,
      List.mem_singleton] at member
    subst member
    simp only [List.length_append, List.length_take] at place
    omega

/-- A head in front of which there is none, and no keyword, has none that begins before it. -/
theorem le_of_headAt (words : ∀ k ∈ keywords, k.IsWord) (named : name.IsWord)
    (here : HeadAt keywords name front text n) (before : Headless keywords name (tokens front))
    (ends : ¬Ends keywords (tokens front)) {front' text' : Bytes} {n' : Nat}
    (same : front ++ text = front' ++ text') (other : HeadAt keywords name front' text' n') :
    front.length ≤ front'.length := by
  by_contra less
  obtain ⟨middle, rfl, rfl⟩ : ∃ middle, front = front' ++ middle ∧ text' = middle ++ text := by
    rcases List.append_eq_append_iff.mp same with ⟨middle, rfl, rfl⟩ | ⟨middle, rfl, rfl⟩
    · rw [List.length_append] at less
      omega
    · exact ⟨middle, rfl, rfl⟩
  have some_middle : middle ≠ [] := by rintro rfl; simp at less
  obtain ⟨k, known, whole⟩ := tokens_of_headAt words named other
  have apart := here.apart_front words
  have first := other.apart_front words
  rw [Bytes.apart_append_right some_middle] at first
  rw [← List.append_assoc, Bytes.tokens_append apart, Bytes.tokens_append first, List.append_assoc,
    List.append_cancel_left_eq] at whole
  rw [Bytes.tokens_append first] at before ends
  -- The keyword lies in `middle`; the name lies there, too, or `middle` ends with the keyword.
  match own : tokens middle with
  | [] =>
    obtain ⟨k, known, white, back, begins, _⟩ := other
    have word := (words k known).first (white ++ (name ++ back))
    rw [← begins, List.head?_append_of_ne_nil _ some_middle] at word
    obtain ⟨w, ws, parts⟩ := Bytes.exists_token word
    rw [own] at parts
    cases parts
  | [t] =>
    rw [own] at whole ends
    obtain ⟨rfl, _⟩ := List.cons.inj whole
    exact ends ⟨t, known, by simp⟩
  | t :: u :: more =>
    rw [own] at whole before
    simp only [List.cons_append, List.nil_append, List.cons.injEq] at whole
    obtain ⟨rfl, rfl, _⟩ := whole
    exact before t known ⟨tokens front', more, by simp⟩

theorem lt_of_headAt (words : ∀ k ∈ keywords, k.IsWord) (named : name.IsWord) {front text first rest : Bytes}
    (behind : Headless keywords name (tokens (text.drop n))) (whole : front ++ text = first ++ rest)
    (other : HeadAt keywords name first rest n') (bound : n ≤ text.length) : first.length < front.length + n := by
  by_contra large
  rw [← List.take_append_drop n text, ← List.append_assoc] at whole
  have size : (front ++ text.take n).length ≤ first.length := by
    rw [List.length_append, List.length_take]
    omega
  obtain ⟨middle, rfl, parts⟩ : ∃ middle, first = (front ++ text.take n) ++ middle ∧
      text.drop n = middle ++ rest := by
    rcases List.append_eq_append_iff.mp whole with ⟨middle, rfl, parts⟩ | ⟨middle, same, rfl⟩
    · exact ⟨middle, rfl, parts⟩
    · rw [same, List.length_append] at size
      obtain rfl := List.eq_nil_of_length_eq_zero (by omega : middle.length = 0)
      exact ⟨[], by rw [same, List.append_nil, List.append_nil], rfl⟩
  obtain ⟨k, known, pair⟩ := tokens_of_headAt words named other.of_prepend
  rw [parts] at behind
  exact behind k known ⟨_, _, by rw [pair, List.append_assoc]⟩

theorem heads_sorted (words : ∀ k ∈ keywords, k.IsWord) (named : name.IsWord) (text : Bytes) :
    ((head keywords name).matches text).Pairwise fun a b => a.1.stop ≤ b.1.start := by
  refine Recogniser.matches_sorted (fun before text n a taken => ?_) text
  have last : before.toList.getLast? = before := by cases before <;> rfl
  rw [← last] at taken
  exact (headAt_of_head words named taken).bounds.1

theorem heads_ordered (words : ∀ k ∈ keywords, k.IsWord) (named : name.IsWord) (text : Bytes) :
    (((head keywords name).matches text).map Prod.fst).Pairwise fun a b => a.start ≤ b.start ∧ a.stop ≤ b.stop := by
  rw [List.pairwise_map]
  refine (heads_sorted words named text).imp_of_mem fun {first second} one two le => ?_
  obtain ⟨n, _, _, stop⟩ := Recogniser.taken_of_mem_matches one
  obtain ⟨n', _, _, stop'⟩ := Recogniser.taken_of_mem_matches two
  omega

/-- A head between two texts without one is the only match, if the first does not end with a keyword. -/
theorem matches_of_headless_around (words : ∀ k ∈ keywords, k.IsWord) (named : name.IsWord)
    (here : HeadAt keywords name front text n) (before : Headless keywords name (tokens front))
    (ends : ¬Ends keywords (tokens front)) (behind : Headless keywords name (tokens (text.drop n))) :
    (head keywords name).matches (front ++ text) = [(⟨front.length, front.length + n⟩, ())] := by
  have sorted := heads_sorted words named (front ++ text)
  obtain ⟨m, member, place⟩ := exists_match words named here
  have inside : ∀ m ∈ (head keywords name).matches (front ++ text),
      front.length ≤ m.1.start ∧ m.1.start < m.1.stop ∧ m.1.start < front.length + n ∧
        (m.1.start = front.length → m = (⟨front.length, front.length + n⟩, ())) := by
    intro m member
    obtain ⟨first, rest, n', whole, other, span⟩ := headAt_of_mem_matches words named member
    have lower := le_of_headAt words named here before ends whole other
    have positive := other.bounds.1
    have upper := lt_of_headAt words named behind whole other here.bounds.2
    rw [span]
    refine ⟨lower, by dsimp only; omega, upper, fun same => ?_⟩
    obtain ⟨rfl, rfl⟩ := List.append_inj whole same.symm
    obtain rfl := other.unique words named here
    exact Prod.ext span rfl
  have own : m = (⟨front.length, front.length + n⟩, ()) := by
    obtain ⟨lower, _, _, same⟩ := inside m member
    exact same (by omega)
  subst own
  cases matched : (head keywords name).matches (front ++ text) with
  | nil => rw [matched] at member; cases member
  | cons x later =>
    rw [matched] at sorted member inside
    obtain ⟨after, _⟩ := List.pairwise_cons.mp sorted
    have first : (⟨front.length, front.length + n⟩, ()) = x := by
      rcases List.mem_cons.mp member with same | behind
      · exact same
      · have := inside x (.head _)
        have := after _ behind
        dsimp only at this
        omega
    subst first
    cases later with
    | nil => rfl
    | cons y later =>
      have := inside y (.tail _ (.head _))
      have := after y (.head _)
      dsimp only at this
      omega

end Declaration
end OutOfLine
