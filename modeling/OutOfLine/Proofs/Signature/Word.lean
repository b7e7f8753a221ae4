import OutOfLine.Proofs.Member.Placement
import OutOfLine.Transform

/-! Words taken out of a signature with the blanks behind them, and what is put into it: the owner
in front of the name, and the qualifier in front of the declaration. -/

namespace OutOfLine

namespace Signature
open Cell

/-- A word that stands on its own at an offset and begins in code position. -/
structure WordAt (word : Bytes) (cells : List Cell) (at_ : Nat) : Prop where
  text : word <+: Cell.bytes (cells.drop at_)
  code : ∀ c, cells[at_]? = some c → c.isCode = true
  before : ∀ c, 0 < at_ → cells[at_ - 1]? = some c → Byte.isIdent c.byte = false
  after : ∀ c, cells[at_ + word.length]? = some c → Byte.isIdent c.byte = false

instance (word : Bytes) (cells : List Cell) (at_ : Nat) : Decidable (WordAt word cells at_) :=
  decidable_of_iff (word <+: bytes (cells.drop at_) ∧ (∀ c ∈ cells[at_]?, c.isCode = true) ∧
      (0 < at_ → ∀ c ∈ cells[at_ - 1]?, Byte.isIdent c.byte = false) ∧
      ∀ c ∈ cells[at_ + word.length]?, Byte.isIdent c.byte = false)
    ⟨fun ⟨text, code, before, after⟩ => ⟨text, code, fun c positive => before positive c, after⟩,
      fun found => ⟨found.text, found.code, fun positive c => found.before c positive, found.after⟩⟩

namespace WordAt

variable {word : Bytes} {cells : List Cell} {at_ : Nat}

theorem bound (found : WordAt word cells at_) (some_word : word ≠ []) :
    at_ + word.length ≤ cells.length := by
  have short := found.text.length_le
  have := List.length_pos_iff.mpr some_word
  simp only [bytes, List.length_map, List.length_drop] at short
  omega

/-- Whether a word stands at an offset can be told from the byte before it and the cells behind it. -/
theorem iff_begins {c : Cell} {rest : List Cell} {before : Option Byte} (left : cells.drop at_ = c :: rest)
    (previous : before = if at_ = 0 then none else cells[at_ - 1]?.map Cell.byte) :
    WordAt word cells at_ ↔ (word.isPrefixOf (c.byte :: bytes (rest.take word.length)) && c.isCode &&
      !before.any Byte.isIdent &&
      Bytes.atWordEnd ((c.byte :: bytes (rest.take word.length)).drop word.length)) = true := by
  have own : cells[at_]? = some c := by
    rw [← List.head?_drop, left, List.head?_cons]
  have window : c.byte :: bytes (rest.take word.length) =
      (bytes (cells.drop at_)).take (word.length + 1) := by
    simp [left, bytes, List.map_take]
  have behind : ((bytes (cells.drop at_)).take (word.length + 1))[word.length]? =
      cells[at_ + word.length]?.map Cell.byte := by
    rw [List.getElem?_take_of_lt (Nat.lt_succ_self _), bytes, List.getElem?_map, List.getElem?_drop]
  simp only [window, Bool.and_eq_true, List.isPrefixOf_iff_prefix, Bool.not_eq_true', Bytes.atWordEnd,
    List.head?_drop, behind, List.prefix_take_iff]
  constructor
  · rintro ⟨text, code, begins, ends⟩
    refine ⟨⟨⟨⟨text, Nat.le_succ _⟩, code c own⟩, ?_⟩, ?_⟩
    · rw [previous]
      split
      · rfl
      · cases found : cells[at_ - 1]? with
        | none => rfl
        | some d => exact begins d (by omega) found
    · cases found : cells[at_ + word.length]? with
      | none => rfl
      | some d => simpa using ends d found
  · rintro ⟨⟨⟨⟨text, _⟩, code⟩, begins⟩, ends⟩
    refine ⟨text, fun d found => Option.some.inj (own.symm.trans found) ▸ code, ?_, ?_⟩
    · intro d positive found
      rw [previous, if_neg (by omega), found] at begins
      exact begins
    · intro d found
      rw [found] at ends
      simpa using ends

end WordAt

/-- A word is found wherever it stands on its own, and nowhere else. -/
theorem mem_wordsFrom_iff {word : Bytes} {all cells : List Cell} {at_ k : Nat} {before : Option Byte}
    (some_word : word ≠ []) (left : all.drop at_ = cells)
    (previous : before = if at_ = 0 then none else all[at_ - 1]?.map Cell.byte) :
    k ∈ wordsFrom word at_ before cells ↔ at_ ≤ k ∧ WordAt word all k := by
  induction cells generalizing at_ before with
  | nil =>
    rw [List.drop_eq_nil_iff] at left
    refine ⟨(fun none => by cases none), fun ⟨behind, found⟩ => ?_⟩
    have := found.bound some_word
    have := List.length_pos_iff.mpr some_word
    omega
  | cons c cells ih =>
    have own : all[at_]? = some c := by
      rw [← List.head?_drop, left, List.head?_cons]
    have rest : all.drop (at_ + 1) = cells := by
      rw [← List.drop_drop, left]
      rfl
    have later : k ∈ wordsFrom word (at_ + 1) (some c.byte) cells ↔ at_ + 1 ≤ k ∧ WordAt word all k :=
      ih rest (by simp [own])
    have here := @WordAt.iff_begins word _ _ _ _ _ left previous
    rw [wordsFrom]
    split
    next fits =>
      rw [List.mem_cons, later]
      constructor
      · rintro (rfl | ⟨behind, found⟩)
        · exact ⟨Nat.le_refl _, here.mpr fits⟩
        · exact ⟨Nat.le_of_succ_le behind, found⟩
      · rintro ⟨behind, found⟩
        exact (Nat.eq_or_lt_of_le behind).imp Eq.symm fun lt => ⟨lt, found⟩
    next fails =>
      rw [later]
      refine ⟨fun ⟨behind, found⟩ => ⟨Nat.le_of_succ_le behind, found⟩, fun ⟨behind, found⟩ => ⟨?_, found⟩⟩
      refine Nat.lt_of_le_of_ne behind ?_
      rintro rfl
      exact fails (here.mp found)

theorem mem_words_iff {sig : Signature} {word : Bytes} {start stop at_ : Nat} :
    at_ ∈ sig.words word start stop ↔
      word ≠ [] ∧ WordAt word sig.cells at_ ∧ start ≤ at_ ∧ at_ + word.length ≤ stop := by
  rw [words]
  split
  next none => simp [none]
  next some_word =>
    have found : at_ ∈ wordsFrom word 0 none sig.cells ↔ 0 ≤ at_ ∧ WordAt word sig.cells at_ :=
      mem_wordsFrom_iff some_word List.drop_zero rfl
    rw [List.mem_filter, found]
    simp [some_word]

theorem wordAt_of_mem_words {sig : Signature} {word : Bytes} {start stop at_ : Nat}
    (member : at_ ∈ sig.words word start stop) :
    word ≠ [] ∧ WordAt word sig.cells at_ ∧ start ≤ at_ ∧ at_ + word.length ≤ stop :=
  mem_words_iff.mp member

/-! What the edits of a signature are. -/

theorem of_mem_markerRemovals {sig : Signature} {markers : List Bytes} {w : Splice}
    (member : w ∈ sig.markerRemovals markers) :
    ∃ marker ∈ markers, ∃ at_, marker ≠ [] ∧ WordAt marker sig.cells at_ ∧ sig.inParameters at_ = false ∧
      w = sig.wordRemoval at_ marker.length := by
  obtain ⟨marker, known, member⟩ := List.mem_flatMap.mp member
  obtain ⟨at_, found, rfl⟩ := List.mem_map.mp member
  obtain ⟨among, out⟩ := List.mem_filter.mp found
  rw [Bool.and_eq_true, Bool.not_eq_true'] at out
  obtain ⟨some_word, word, _⟩ := wordAt_of_mem_words among
  exact ⟨marker, known, at_, some_word, word, out.1, rfl⟩

theorem of_mem_constRemovals {sig : Signature} {w : Splice} (member : w ∈ sig.constRemovals) :
    ∃ p at_, sig.parameters = some p ∧ p.stop ≤ at_ ∧ WordAt (utf8 "const") sig.cells at_ ∧
      w = sig.wordRemoval at_ (utf8 "const").length := by
  unfold constRemovals at member
  split at member
  next => cases member
  next p list =>
    obtain ⟨at_, found, rfl⟩ := List.mem_map.mp member
    obtain ⟨_, word, behind, _⟩ := wordAt_of_mem_words found
    exact ⟨p, at_, list, behind, word, rfl⟩

theorem of_qualifierInsertion? {sig : Signature} {qualifier : Bytes} {w : Splice}
    (made : sig.qualifierInsertion? qualifier = some w) :
    ∃ place, sig.qualifierPlace? = some place ∧ w = .insert place (qualifier ++ [Byte.space]) := by
  unfold qualifierInsertion? at made
  split at made
  · cases made
  · obtain ⟨place, found, rfl⟩ := Option.map_eq_some_iff.mp made
    exact ⟨place, found, rfl⟩

namespace WordAt

variable {word : Bytes} {cells : List Cell} {at_ : Nat}

theorem append {more : List Cell} (found : WordAt word cells at_) (some_word : word ≠ [])
    (blank : ∀ c ∈ more, Byte.isBlank c.byte = true) : WordAt word (cells ++ more) at_ := by
  have upto := found.bound some_word
  have := List.length_pos_iff.mpr some_word
  refine ⟨?_, ?_, ?_, ?_⟩
  · rw [List.drop_append_of_le_length (by omega), bytes_append]
    exact found.text.trans (List.prefix_append _ _)
  · rw [List.getElem?_append_left (by omega)]
    exact found.code
  · rw [List.getElem?_append_left (by omega)]
    exact found.before
  · intro c inside
    by_cases short : at_ + word.length < cells.length
    · rw [List.getElem?_append_left short] at inside
      exact found.after c inside
    · rw [List.getElem?_append_right (by omega)] at inside
      exact not_ident_of_blank (blank c (List.mem_of_getElem? inside))

end WordAt

/-- A word that does not turn a quote behind it into part of a number or of a raw string. -/
structure Keyword (word : Bytes) : Prop where
  ident : ∀ b ∈ word, Byte.isIdent b = true
  plain : Lexeme.Plain word.reverse

/-- The text behind a word and the blanks after it is read as if the word were not there. -/
theorem WordAt.resume {word : Bytes} {cells : List Cell} {at_ : Nat} {tail : Bytes}
    (found : WordAt word cells at_) (some_word : word ≠ []) (keyword : Keyword word)
    (read : Reads [] cells tail) {blanks rest : List Cell}
    (split : cells.drop (at_ + word.length) = blanks ++ rest)
    (blank : ∀ c ∈ blanks, Byte.isBlank c.byte = true) : Reads [] rest tail := by
  have bound := found.bound some_word
  have start := read.from_code found.code
  rw [runOver_take (by omega) fun c positive inside => by simp [found.before c positive inside]] at start
  have parts := List.take_append_drop word.length (cells.drop at_)
  rw [List.drop_drop, split] at parts
  have own : bytes ((cells.drop at_).take word.length) = word := by
    rw [bytes, List.map_take]
    exact (List.prefix_iff_eq_take.mp found.text).symm
  have ident : ∀ c ∈ (cells.drop at_).take word.length, Byte.isIdent c.byte = true := by
    intro c member
    apply keyword.ident
    rw [← own]
    exact List.mem_map_of_mem member
  rw [← parts] at start
  have code := start.code_of_plain fun c member => not_delimiter_of_ident (ident c member)
  have behind := (start.split_behind fun c last => code c (List.mem_of_getLast? last)).2
  rw [runOver_word code ident, own, List.append_nil] at behind
  cases blanks with
  | nil =>
    apply behind.rerun_plain keyword.plain
    intro c first
    have next : cells[at_ + word.length]? = some c := by
      rw [← List.head?_drop, split]
      exact first
    simp [found.after c next]
  | cons b blanks =>
    have code := behind.code_of_plain fun c member => not_delimiter_of_blank (blank c member)
    have after := (behind.split_behind fun c last => code c (List.mem_of_getLast? last)).2
    obtain ⟨c, last⟩ : ∃ c, (b :: blanks).getLast? = some c := ⟨_, List.getLast?_eq_some_getLast (by simp)⟩
    rw [runOver_of_last last] at after
    · exact after
    · rw [not_ident_of_blank (blank c (List.mem_of_getLast? last)), Bool.and_false]

/-- A signature as it stands in a text: blanks may follow it. -/
structure Stands (sig : Signature) (blanks : List Cell) (tail : Bytes) : Prop where
  reads : Reads [] (sig.cells ++ blanks) tail
  blank : ∀ c ∈ blanks, Byte.isBlank c.byte = true
  parameters : sig.parameters = parameters? sig.cells sig.name
  first : ∃ c, sig.cells[0]? = some c ∧ c.isTrivia = false
  named : Callable.NameAt (Cell.views sig.cells) sig.name.start

/-- An edit of a signature that leaves it readable where it stands. -/
structure Edits (sig : Signature) (blanks : List Cell) (tail : Bytes) (w : Splice) : Prop where
  fits : w.Fits (sig.cells ++ blanks) tail
  within : w.span.stop ≤ sig.length

variable {sig : Signature} {blanks : List Cell} {tail : Bytes}

theorem isBlank_of_isInlineBlank {b : Byte} (blank : Byte.isInlineBlank b = true) :
    Byte.isBlank b = true := by
  simp only [Byte.isInlineBlank, Bool.or_eq_true] at blank
  rcases blank with blank | blank <;> simp [Byte.isBlank, blank]

theorem wordRemoval_edits (stands : sig.Stands blanks tail) {word : Bytes} {at_ : Nat}
    (found : WordAt word sig.cells at_) (some_word : word ≠ []) (keyword : Keyword word)
    (clean : (sig.wordRemoval at_ word.length).Clean sig.cells) :
    sig.Edits blanks tail (sig.wordRemoval at_ word.length) := by
  have bound := found.bound some_word
  have positive := List.length_pos_iff.mpr some_word
  have whole := found.append some_word stands.blank
  generalize taken : (sig.cells.drop (at_ + word.length)).takeWhile (Byte.isInlineBlank ·.byte) = gap
  have front : gap <+: sig.cells.drop (at_ + word.length) := taken ▸ List.takeWhile_prefix _
  have length := front.length_le
  rw [List.length_drop] at length
  have removal : sig.wordRemoval at_ word.length = .remove at_ (at_ + word.length + gap.length) := by
    rw [wordRemoval, taken]
  rw [removal] at clean ⊢
  refine ⟨?_, by simp only [Splice.remove, Signature.length]; omega⟩
  refine ⟨?_, ?_, whole.code, by simp [Splice.remove], ?_, ?_, .inr (.inl ⟨rfl, ?_, ?_⟩)⟩
  · simp only [Splice.remove]
    omega
  · simp only [Splice.remove, List.length_append]
    omega
  · intro c after before
    rw [List.getElem?_append_left (by simp only [Splice.remove] at after ⊢; omega)] at before
    exact ⟨(clean rfl c before after).1, fun _ => (clean rfl c before after).2⟩
  · have split : (sig.cells ++ blanks).drop (at_ + word.length) =
        gap ++ (sig.cells ++ blanks).drop (at_ + word.length + gap.length) := by
      have front : gap <+: (sig.cells ++ blanks).drop (at_ + word.length) := by
        rw [List.drop_append_of_le_length bound]
        exact front.trans (List.prefix_append _ _)
      have parts := List.prefix_iff_eq_append.mp front
      rw [List.drop_drop] at parts
      exact parts.symm
    apply whole.resume some_word keyword stands.reads split
    intro c member
    rw [← taken] at member
    exact isBlank_of_isInlineBlank (List.all_eq_true.mp List.all_takeWhile c member)
  · obtain ⟨b, word, rfl⟩ := List.exists_cons_of_ne_nil some_word
    obtain ⟨rest, text⟩ := whole.text
    have first := congrArg List.head? text
    rw [List.cons_append, List.head?_cons, bytes, List.head?_map, List.head?_drop, eq_comm,
      Option.map_eq_some_iff] at first
    obtain ⟨c, first, rfl⟩ := first
    exact ⟨c, first, keyword.ident c.byte (.head _)⟩
  · intro c after before
    rw [whole.before c after before, Bool.and_false]

theorem markerRemoval_edits (stands : sig.Stands blanks tail) {markers : List Bytes}
    (keywords : ∀ m ∈ markers, Keyword m) {w : Splice} (member : w ∈ sig.markerRemovals markers)
    (clean : w.Clean sig.cells) : sig.Edits blanks tail w := by
  obtain ⟨marker, known, at_, some_word, word, _, rfl⟩ := of_mem_markerRemovals member
  exact wordRemoval_edits stands word some_word (keywords marker known) clean

theorem constRemoval_edits (stands : sig.Stands blanks tail) {w : Splice}
    (member : w ∈ sig.constRemovals) (clean : w.Clean sig.cells) : sig.Edits blanks tail w := by
  obtain ⟨_, at_, _, _, word, rfl⟩ := of_mem_constRemovals member
  exact wordRemoval_edits stands word (by decide) ⟨by decide +kernel, by decide, by decide⟩ clean

end Signature

namespace Cell

theorem of_nameAt {cells : List Cell} {at_ : Nat} (named : Callable.NameAt (views cells) at_) :
    ∃ c, cells[at_]? = some c ∧ c.isTrivia = false ∧ (c.byte = Byte.tilde ∨
      ∀ d, 0 < at_ → cells[at_ - 1]? = some d → (d.isCode && Byte.isIdent d.byte) = false) := by
  obtain ⟨b, here, start⟩ := named
  rw [views, List.getElem?_map, Option.map_eq_some_iff] at here
  obtain ⟨c, here, seen⟩ := here
  have solid : Byte.isBlank b = false := by
    rcases start with rfl | ⟨ident, _⟩
    · rfl
    · cases blank : Byte.isBlank b with
      | false => rfl
      | true => rw [not_ident_of_blank blank] at ident; cases ident
  obtain ⟨byte, code⟩ := of_view seen (by rintro rfl; cases solid) (by rintro rfl; cases solid)
  refine ⟨c, here, by simp [isTrivia, code, byte, solid], ?_⟩
  rw [byte]
  refine start.imp_right fun first d positive before => ?_
  by_contra word
  simp only [Bool.not_eq_false, Bool.and_eq_true] at word
  have shown : d.view = d.byte := view_of_ident word.1 word.2
  have apart := first.2 d.view positive (by rw [views, List.getElem?_map, before]; rfl)
  rw [shown, word.2] at apart
  cases apart

theorem apart_of_trivia {c : Cell} (trivia : c.isTrivia = true) :
    (c.isCode && Byte.isIdent c.byte) = false := by
  cases code : c.isCode with
  | false => rfl
  | true =>
    simp only [isTrivia, code, Bool.not_true, Bool.false_or] at trivia
    rw [not_ident_of_blank trivia, Bool.and_false]

end Cell

open Cell

variable {tail : Bytes}

/-- Text can be put in front of a byte of code, if it ends no word. -/
theorem Splice.insert_fits {cells : List Cell} {at_ : Nat} {c : Cell} {text : Bytes}
    (read : Reads [] cells tail) (here : cells[at_]? = some c) (solid : c.isTrivia = false)
    (resume : Reads [] (cells.drop at_) tail) (inert : ∀ b ∈ text, b ∉ delimiters)
    (ends : ∃ b, text.getLast? = some b ∧ Byte.isIdent b = false) :
    (Splice.insert at_ text).Fits cells tail := by
  obtain ⟨code, notBlank⟩ := code_of_not_trivia solid
  have bound := (List.getElem?_eq_some_iff.mp here).1
  have some_text : text ≠ [] := by
    obtain ⟨b, last, _⟩ := ends
    rintro rfl
    cases last
  have only : ∀ d, cells[at_]? = some d → d = c := fun d found => Option.some.inj (found.symm.trans here)
  refine ⟨Nat.le_refl _, Nat.le_of_lt bound, fun d found => only d found ▸ code, inert, ?_, resume,
    .inl ends⟩
  intro d positive before
  refine ⟨read.noLine_before here code ?_ d positive before, fun none => absurd none some_text⟩
  intro newline
  rw [newline] at notBlank
  cases notBlank

namespace Signature

variable {sig : Signature} {blanks : List Cell}

theorem scope_edits (stands : sig.Stands blanks tail) {owner : Bytes}
    (inert : ∀ b ∈ owner, b ∉ delimiters) :
    sig.Edits blanks tail (.insert sig.name.start (Definition.scope owner)) := by
  obtain ⟨c, here, solid, start⟩ := of_nameAt stands.named
  have bound := (List.getElem?_eq_some_iff.mp here).1
  rw [← List.getElem?_append_left bound] at here
  have code := (code_of_not_trivia solid).1
  have read : Reads (runOver [] ((sig.cells ++ blanks).take sig.name.start))
      ((sig.cells ++ blanks).drop sig.name.start) tail := by
    apply stands.reads.from_code
    intro d found
    rw [here] at found
    exact Option.some.inj found ▸ code
  refine ⟨Splice.insert_fits stands.reads here solid ?_ ?_ ⟨Byte.colon, ?_, rfl⟩, Nat.le_of_lt bound⟩
  · rcases start with tilde | apart
    · apply read.rerun_solid
      intro d first
      rw [List.head?_drop, here] at first
      obtain rfl := Option.some.inj first
      rw [tilde]
      decide
    · rwa [runOver_take (by rw [List.length_append]; omega) fun d positive before => apart d positive (by
        rwa [List.getElem?_append_left (by omega)] at before)] at read
  · intro b member
    rcases List.mem_append.mp member with own | colon
    · exact inert b own
    · exact (by decide +kernel : ∀ b ∈ utf8 "::", b ∉ delimiters) b colon
  · rw [Definition.scope, List.getLast?_append_of_ne_nil _ (by decide)]
    decide

theorem closingAngleFrom?_spec {angle : Int} {at_ k : Nat} {cells : List Cell}
    (found : closingAngleFrom? angle at_ cells = some k) :
    at_ ≤ k ∧ ∃ c, cells[k - at_]? = some c ∧ (c.byte = Byte.less ∨ c.byte = Byte.greater) := by
  induction cells generalizing angle at_ with
  | nil => cases found
  | cons c cells ih =>
    have later {angle : Int} (goes_on : closingAngleFrom? angle (at_ + 1) cells = some k) :
        at_ ≤ k ∧ ∃ d, (c :: cells)[k - at_]? = some d ∧ (d.byte = Byte.less ∨ d.byte = Byte.greater) := by
      obtain ⟨after, d, inside, angle⟩ := ih goes_on
      have shift : k - at_ = k - (at_ + 1) + 1 := by omega
      exact ⟨by omega, d, by rw [shift, List.getElem?_cons_succ, inside], angle⟩
    have here (angle : c.byte = Byte.less ∨ c.byte = Byte.greater) (same : at_ = k) :
        at_ ≤ k ∧ ∃ d, (c :: cells)[k - at_]? = some d ∧ (d.byte = Byte.less ∨ d.byte = Byte.greater) :=
      ⟨by omega, c, by simp [same], angle⟩
    unfold closingAngleFrom? at found
    split at found
    next less =>
      split at found
      · exact here (.inl (of_isCodeByte less).1) (Option.some.inj found)
      · exact later found
    next =>
      split at found
      next greater =>
        split at found
        · exact here (.inr (of_isCodeByte greater).1) (Option.some.inj found)
        · exact later found
      next => exact later found

/-- A qualifier goes in front of a byte of code, and behind a blank or an angle bracket. -/
theorem qualifierPlace?_spec (stands : sig.Stands blanks tail) {place : Nat}
    (found : sig.qualifierPlace? = some place) :
    (∃ c, sig.cells[place]? = some c ∧ c.isTrivia = false) ∧
      ∀ d, 0 < place → sig.cells[place - 1]? = some d →
        d.isTrivia = true ∨ d.byte = Byte.less ∨ d.byte = Byte.greater := by
  unfold qualifierPlace? at found
  dsimp only at found
  split at found
  · obtain ⟨name, at_name, solid, _⟩ := of_nameAt stands.named
    have bound := (List.getElem?_eq_some_iff.mp at_name).1
    have ahead (i : Nat) (before : i < sig.name.start) : sig.aheadOfName[i]? = sig.cells[i]? := by
      rw [aheadOfName, List.getElem?_take_of_lt before]
    have length : sig.aheadOfName.length = sig.name.start := by
      rw [aheadOfName, List.length_take, Nat.min_eq_left (by omega)]
    simp only [Option.bind_eq_bind, Option.bind_eq_some_iff] at found
    obtain ⟨closing, closed, same⟩ := found
    obtain ⟨_, angle, inside, bracket⟩ := closingAngleFrom?_spec closed
    rw [Nat.sub_zero] at inside
    have before := (List.getElem?_eq_some_iff.mp inside).1
    rw [ahead closing (by omega)] at inside
    obtain ⟨upto, skipped, stops⟩ :=
      skipped_spec Cell.isTrivia sig.aheadOfName (by omega : closing + 1 ≤ sig.aheadOfName.length)
    cases same
    generalize landed : closing + 1 + ((sig.aheadOfName.drop (closing + 1)).takeWhile Cell.isTrivia).length =
      place at upto skipped stops
    constructor
    · by_cases last : place = sig.name.start
      · exact ⟨name, by rw [last, at_name], solid⟩
      · have here := ahead place (by omega)
        cases found : sig.cells[place]? with
        | none =>
          have := List.getElem?_eq_none_iff.mp found
          omega
        | some c => exact ⟨c, rfl, stops c (here.trans found)⟩
    · intro d positive found
      by_cases next : place = closing + 1
      · rw [next, Nat.add_sub_cancel, inside] at found
        exact .inr (Option.some.inj found ▸ bracket)
      · refine .inl (skipped (place - 1) d (by omega) (by omega) ?_)
        rw [ahead _ (by omega), found]
  · cases found
    exact ⟨stands.first, by omega⟩

theorem qualifierPlace?_le {place : Nat} (found : sig.qualifierPlace? = some place) :
    place ≤ sig.name.start := by
  unfold qualifierPlace? at found
  dsimp only at found
  split at found
  · simp only [Option.bind_eq_bind, Option.bind_eq_some_iff] at found
    obtain ⟨closing, closed, same⟩ := found
    obtain ⟨_, angle, inside, _⟩ := closingAngleFrom?_spec closed
    have before := (List.getElem?_eq_some_iff.mp inside).1
    have upto := (skipped_spec Cell.isTrivia sig.aheadOfName (by omega : closing + 1 ≤ _)).1
    have length : sig.aheadOfName.length ≤ sig.name.start := by
      rw [aheadOfName, List.length_take]
      omega
    cases same
    exact Nat.le_trans upto length
  · cases found
    exact Nat.zero_le _

theorem qualifierInsertion_edits (stands : sig.Stands blanks tail) {qualifier : Bytes}
    (inert : ∀ b ∈ qualifier, b ∉ delimiters) {w : Splice}
    (made : sig.qualifierInsertion? qualifier = some w) : sig.Edits blanks tail w := by
  obtain ⟨place, found, rfl⟩ := of_qualifierInsertion? made
  obtain ⟨⟨c, here, solid⟩, before⟩ := qualifierPlace?_spec stands found
  have apart (d : Cell) (positive : 0 < place) (there : sig.cells[place - 1]? = some d) :
      (d.isCode && Byte.isIdent d.byte) = false := by
    rcases before d positive there with trivia | same | same
    · exact apart_of_trivia trivia
    · rw [same]
      exact Bool.and_false _
    · rw [same]
      exact Bool.and_false _
  have bound := (List.getElem?_eq_some_iff.mp here).1
  rw [← List.getElem?_append_left bound] at here
  refine ⟨Splice.insert_fits stands.reads here solid ?_ ?_ ⟨Byte.space, by simp, rfl⟩, Nat.le_of_lt bound⟩
  · have read : Reads (runOver [] ((sig.cells ++ blanks).take place))
        ((sig.cells ++ blanks).drop place) tail := by
      apply stands.reads.from_code
      intro d found
      rw [here] at found
      exact Option.some.inj found ▸ (code_of_not_trivia solid).1
    rwa [runOver_take (by rw [List.length_append]; omega) fun d positive before => apart d positive (by
      rwa [List.getElem?_append_left (by omega)] at before)] at read
  · intro b member
    rcases List.mem_append.mp member with own | space
    · exact inert b own
    · rw [List.mem_singleton.mp space]
      decide

end Signature

end OutOfLine
