import OutOfLine.Proofs.Assembly
import OutOfLine.Proofs.Splice.Trace

/-! The edits of a signature keep apart: no marker or default argument overlaps another one, and
none reaches over the place where the name begins. -/

namespace OutOfLine

namespace Signature
open Cell

/-- Default arguments are removed from left to right, and none twice. -/
theorem ordered_defaultsFrom {st : DefaultState} {before : Byte} {low blanks at_ : Nat} {cells : List Cell}
    (lower : low ≤ blanks) (upto : blanks ≤ at_) (removing : ∀ r ∈ st.removing, low ≤ r) :
    (∀ w ∈ defaultsFrom st before blanks at_ cells, low ≤ w.span.start) ∧
      (defaultsFrom st before blanks at_ cells).Pairwise fun a b => a.span.stop ≤ b.span.start := by
  induction cells generalizing st before low blanks at_ with
  | nil => exact ⟨by simp [defaultsFrom], .nil⟩
  | cons c cells ih =>
    have next : low ≤ (if Byte.isBlank c.byte then blanks else at_ + 1) ∧
        (if Byte.isBlank c.byte then blanks else at_ + 1) ≤ at_ + 1 := by
      split <;> omega
    unfold defaultsFrom
    dsimp only
    split
    next ends =>
      have later : (∀ w ∈ defaultsFrom { st with removing := none } c.byte
          (if Byte.isBlank c.byte then blanks else at_ + 1) (at_ + 1) cells, at_ + 1 ≤ w.span.start) ∧
          (defaultsFrom { st with removing := none } c.byte
            (if Byte.isBlank c.byte then blanks else at_ + 1) (at_ + 1) cells).Pairwise
              fun a b => a.span.stop ≤ b.span.start := by
        rcases ends with rfl | ⟨comma, _⟩
        · exact ⟨by simp [defaultsFrom], .nil⟩
        · have solid : Byte.isBlank c.byte = false := by
            rw [(of_isCodeByte comma).1]
            rfl
          rw [solid]
          exact ih (Nat.le_refl _) (Nat.le_refl _) (by simp)
      have own : ∀ w ∈ st.removing.toList.map (Splice.remove · at_), low ≤ w.span.start ∧ w.span.stop = at_ := by
        intro w member
        obtain ⟨r, known, rfl⟩ := List.mem_map.mp member
        exact ⟨removing r (Option.mem_toList.mp known), rfl⟩
      refine ⟨fun w member => ?_, List.pairwise_append.mpr ⟨?_, later.2, fun v first w second => ?_⟩⟩
      · rcases List.mem_append.mp member with here | behind
        · exact (own w here).1
        · have := later.1 w behind
          omega
      · cases st.removing <;> simp
      · have := (own v first).2
        have := later.1 w second
        omega
    next =>
      split
      next =>
        refine ih next.1 next.2 fun r known => ?_
        rcases DefaultState.removing_after known with before | ⟨_, rfl⟩
        · exact removing r before
        · exact lower
      next => exact ih next.1 next.2 removing

variable {sig : Signature} {blanks : List Cell} {tail : Bytes} {options : Options} {w : Splice}

theorem defaultRemovals_spec (parameters : sig.parameters = parameters? sig.cells sig.name)
    (member : w ∈ sig.defaultRemovals) : ∃ p, sig.parameters = some p ∧
      p.start < w.span.start ∧ w.span.start < w.span.stop ∧ w.span.stop < p.stop ∧ w.text = [] := by
  obtain ⟨p, list, _, _, removes⟩ := removes_of_mem_defaultRemovals parameters member
  obtain ⟨equals, begins, before⟩ := removes.start
  obtain ⟨c, stop, _⟩ := removes.stop
  have inside := (List.getElem?_eq_some_iff.mp stop).1
  rw [List.length_take] at inside
  have order := begins.le
  refine ⟨p, list, ?_, by omega, by omega, removes.text⟩
  rw [defaultRemovals, list] at member
  exact (ordered_defaultsFrom (Nat.le_refl _) (Nat.le_refl _) (by simp)).1 w member

theorem ordered_defaultRemovals (sig : Signature) :
    sig.defaultRemovals.Pairwise fun a b => a.span.stop ≤ b.span.start := by
  unfold defaultRemovals
  split
  · exact .nil
  · exact (ordered_defaultsFrom (Nat.le_refl _) (Nat.le_refl _) (by simp)).2

theorem wordRemoval_stop_le {word : Bytes} {at_ place : Nat} {c : Cell} (found : WordAt word sig.cells at_)
    (ident : ∀ b ∈ word, Byte.isIdent b = true) (order : at_ ≤ place) (here : sig.cells[place]? = some c)
    (sign : Byte.isIdent c.byte = false) (solid : Byte.isBlank c.byte = false) :
    (sig.wordRemoval at_ word.length).span.stop ≤ place := by
  have bound := (List.getElem?_eq_some_iff.mp here).1
  have upto : at_ + word.length ≤ place := by
    by_contra inside
    obtain ⟨rest, text⟩ := found.text
    have shown : (bytes (sig.cells.drop at_))[place - at_]? = some c.byte := by
      rw [bytes, List.getElem?_map, List.getElem?_drop, Nat.add_sub_cancel' order, here]
      rfl
    rw [← text, List.getElem?_append_left (by omega)] at shown
    rw [ident _ (List.mem_of_getElem? shown)] at sign
    cases sign
  obtain ⟨_, skipped, _⟩ := skipped_spec (Byte.isInlineBlank ·.byte) sig.cells
    (by omega : at_ + word.length ≤ sig.cells.length)
  by_contra beyond
  have blank := skipped place c upto (Nat.lt_of_not_le beyond) here
  rw [isBlank_of_isInlineBlank blank] at solid
  cases solid

/-- All that an edit of a helper can be, other than the removal of a default argument. -/
theorem helperEdits_spec (member : w ∈ Definition.helperEdits sig options) :
    (∃ word at_, word ∈ options.markers ∧ WordAt word sig.cells at_ ∧ sig.inParameters at_ = false ∧
      w = sig.wordRemoval at_ word.length) ∨
    (∃ p at_ length, sig.parameters = some p ∧ p.stop ≤ at_ ∧ w = sig.wordRemoval at_ length) ∨
    ∃ place text, sig.qualifierPlace? = some place ∧ w = .insert place text := by
  simp only [Definition.helperEdits, List.mem_append, Option.mem_toList] at member
  rcases member with (marker | const) | qualifier
  · obtain ⟨word, known, at_, _, found, out, rfl⟩ := of_mem_markerRemovals marker
    exact .inl ⟨word, at_, known, found, out, rfl⟩
  · obtain ⟨p, at_, list, behind, _, rfl⟩ := of_mem_constRemovals const
    exact .inr (.inl ⟨p, at_, _, list, behind, rfl⟩)
  · obtain ⟨place, found, rfl⟩ := of_qualifierInsertion? qualifier
    exact .inr (.inr ⟨place, _, found, rfl⟩)

theorem order_of_mem_helperEdits (member : w ∈ Definition.helperEdits sig options) :
    w.span.start ≤ w.span.stop := by
  have word (at_ length : Nat) :
      (sig.wordRemoval at_ length).span.start ≤ (sig.wordRemoval at_ length).span.stop := by
    simp only [wordRemoval, Splice.remove]
    omega
  rcases helperEdits_spec member with ⟨_, _, _, _, _, rfl⟩ | ⟨_, _, _, _, _, rfl⟩ | ⟨_, _, _, rfl⟩
  · exact word _ _
  · exact word _ _
  · exact Nat.le_refl _

/-- The edits of a helper stay out of the parameter list. -/
theorem helperEdits_apart (stands : sig.Stands blanks tail) (safe : options.LexicallySafe) {p : Span}
    (list : sig.parameters = some p) (named : sig.name.start ≤ sig.name.stop)
    (member : w ∈ Definition.helperEdits sig options) :
    w.span.stop ≤ p.start ∨ p.stop ≤ w.span.start := by
  obtain ⟨ahead, _, _, ⟨paren, at_paren, opens⟩, _⟩ :=
    parameters?_spec (stands.parameters.symm.trans list)
  have sign : Byte.isIdent paren.byte = false ∧ Byte.isBlank paren.byte = false := by
    rw [(of_isCodeByte opens).1]
    exact ⟨rfl, rfl⟩
  rcases helperEdits_spec member with
    ⟨word, at_, known, found, out, rfl⟩ | ⟨q, at_, _, list', after, rfl⟩ | ⟨place, _, found, rfl⟩
  · simp only [inParameters, list, Option.any_some, Span.contains, Bool.and_eq_false_iff,
      decide_eq_false_iff_not] at out
    by_cases before : at_ ≤ p.start
    · exact .inl (wordRemoval_stop_le found (safe.markers word known).ident before at_paren sign.1 sign.2)
    · right
      simp only [wordRemoval, Splice.remove]
      omega
  · obtain rfl := Option.some.inj (list'.symm.trans list)
    exact .inr after
  · exact .inl (Nat.le_trans (qualifierPlace?_le found) (Nat.le_trans named ahead))

/-- A definition's edits are those of its declaration and the removals of default arguments, which meet
neither them nor one another. -/
theorem removals_defaults (stands : sig.Stands blanks tail) (safe : options.LexicallySafe)
    (named : sig.name.start ≤ sig.name.stop) :
    Splice.Removals (Definition.helperEdits sig options) sig.defaultRemovals where
  text w member := by
    obtain ⟨_, _, _, _, _, text⟩ := defaultRemovals_spec stands.parameters member
    exact text
  length w member := by
    obtain ⟨_, _, _, length, _⟩ := defaultRemovals_spec stands.parameters member
    exact length
  alone a first b second := by
    have symm : Std.Symm fun a b : Splice =>
      a.span.stop ≤ b.span.start ∨ b.span.stop ≤ a.span.start := ⟨fun _ _ => Or.symm⟩
    have apart : sig.defaultRemovals.Pairwise fun a b =>
      a.span.stop ≤ b.span.start ∨ b.span.stop ≤ a.span.start := (ordered_defaultRemovals sig).imp .inl
    exact or_iff_not_imp_left.mpr (apart.forall first second)
  order w member := order_of_mem_helperEdits member
  apart w edit r removal := by
    obtain ⟨p, list, after, _, before, _⟩ := defaultRemovals_spec stands.parameters removal
    have := helperEdits_apart stands safe list named edit
    omega

end Signature

theorem Span.mem_slice_iff {items : List α} {start stop : Nat} {a : α} :
    a ∈ (Span.mk start stop).slice items ↔ ∃ i, start ≤ i ∧ i < stop ∧ items[i]? = some a := by
  rw [List.mem_iff_getElem?]
  simp only [slice, length, List.getElem?_take, List.getElem?_drop]
  constructor
  · rintro ⟨i, here⟩
    split at here
    · exact ⟨start + i, by omega, by omega, here⟩
    · cases here
  · rintro ⟨i, low, high, here⟩
    exact ⟨i - start, by rw [if_pos (by omega), Nat.add_sub_cancel' low, here]⟩

namespace Cell

variable {tail : Bytes} {cells : List Cell}

theorem Reads.code_of_ident_before (read : Reads [] cells tail) {i : Nat} {c d : Cell}
    (here : cells[i]? = some c) (ident : Byte.isIdent c.byte = true) (next : cells[i + 1]? = some d)
    (code : d.isCode = true) (solid : d.byte ≠ Byte.newline) : c.isCode = true := by
  have bound := (List.getElem?_eq_some_iff.mp next).1
  have noLine := read.noLine_before next code solid c (by omega) here
  rw [← List.take_append_drop (i + 1) cells] at read
  have front := (read.split_before (by
    rw [List.head?_drop, next]
    exact fun e same => Option.some.inj same ▸ code)).1
  rw [List.take_add_one, here] at front
  have plain : ∀ e ∈ (some c).toList, e.byte ∉ delimiters := by
    simpa using not_delimiter_of_ident ident
  exact (front.code_or_comment plain c (by simp)).resolve_right noLine

end Cell

namespace Signature
open Cell

/-- A marker that is taken out of a signature: a whole word in code, outside the parameter list, that is
not the beginning of the name. -/
structure MarkerAt (sig : Signature) (markers : List Bytes) (word : Bytes) (at_ : Nat) : Prop where
  known : word ∈ markers
  stands : WordAt word sig.cells at_
  outside : sig.inParameters at_ = false
  other : at_ ≠ sig.name.start

/-- Whether the byte at an offset is part of the word `word` at `at_`, or of the spaces and tabs right
behind it. -/
def GoesWith (sig : Signature) (word : Bytes) (at_ offset : Nat) : Prop :=
  at_ ≤ offset ∧ ∀ c ∈ (Span.mk (at_ + word.length) (offset + 1)).slice sig.cells,
    Byte.isInlineBlank c.byte = true

def Taken (sig : Signature) (markers : List Bytes) (offset : Nat) : Prop :=
  ∃ word at_, sig.MarkerAt markers word at_ ∧ sig.GoesWith word at_ offset

instance (sig : Signature) (markers : List Bytes) (word : Bytes) (at_ : Nat) :
    Decidable (sig.MarkerAt markers word at_) :=
  decidable_of_iff (markers.contains word = true ∧ WordAt word sig.cells at_ ∧
      sig.inParameters at_ = false ∧ at_ ≠ sig.name.start)
    ⟨fun ⟨known, stands, outside, other⟩ => ⟨List.contains_iff_mem.mp known, stands, outside, other⟩,
      fun found => ⟨List.contains_iff_mem.mpr found.known, found.stands, found.outside, found.other⟩⟩

instance (sig : Signature) (word : Bytes) (at_ offset : Nat) : Decidable (sig.GoesWith word at_ offset) :=
  inferInstanceAs (Decidable (_ ∧ _))

instance (sig : Signature) (markers : List Bytes) (offset : Nat) : Decidable (sig.Taken markers offset) :=
  decidable_of_iff (∃ word ∈ markers, ∃ at_ ∈ List.range (offset + 1), sig.MarkerAt markers word at_ ∧
      sig.GoesWith word at_ offset)
    ⟨fun ⟨word, _, at_, _, found, goes⟩ => ⟨word, at_, found, goes⟩, fun ⟨word, at_, found, goes⟩ =>
      ⟨word, found.known, at_, List.mem_range.mpr (Nat.lt_succ_of_le goes.1), found, goes⟩⟩

section

variable {sig : Signature} {word : Bytes} {at_ place : Nat}

/-- A word ends in front of what is not part of one word with the byte before it. -/
theorem WordAt.stop_le (found : WordAt word sig.cells at_) (is_word : word.IsWord) (before : at_ < place)
    (apart : (∀ c ∈ sig.cells[place]?, Byte.isIdent c.byte = false) ∨
      ∀ c ∈ sig.cells[place - 1]?, Byte.isIdent c.byte = false) : at_ + word.length ≤ place := by
  by_contra beyond
  have ident (i : Nat) (low : at_ ≤ i) (high : i < at_ + word.length) :
      ∃ c ∈ sig.cells[i]?, Byte.isIdent c.byte = true := by
    have here := List.prefix_iff_getElem?.mp found.text (i - at_) (by omega)
    rw [bytes, List.getElem?_map, List.getElem?_drop, Nat.add_sub_cancel' low, Option.map_eq_some_iff] at here
    obtain ⟨c, here, same⟩ := here
    exact ⟨c, here, same ▸ is_word.ident _ (List.getElem_mem _)⟩
  rcases apart with sign | sign
  · obtain ⟨c, here, own⟩ := ident place (by omega) (by omega)
    rw [sign c here] at own
    cases own
  · obtain ⟨c, here, own⟩ := ident (place - 1) (by omega) (by omega)
    rw [sign c here] at own
    cases own

theorem goesWith_iff {offset : Nat} : sig.GoesWith word at_ offset ↔ at_ ≤ offset ∧
    ∀ i, at_ + word.length ≤ i → i ≤ offset → ∀ c, sig.cells[i]? = some c →
      Byte.isInlineBlank c.byte = true := by
  simp only [GoesWith, Span.mem_slice_iff, Nat.lt_succ_iff]
  exact and_congr_right fun _ => ⟨fun blank i low high c here => blank c ⟨i, low, high, here⟩,
    fun blank c ⟨i, low, high, here⟩ => blank i low high c here⟩

theorem wordRemoval_contains (bound : at_ + word.length ≤ sig.cells.length) {offset : Nat}
    (inside : offset < sig.cells.length) :
    (sig.wordRemoval at_ word.length).span.contains offset = true ↔ sig.GoesWith word at_ offset := by
  obtain ⟨_, skipped, stops⟩ := skipped_spec (Byte.isInlineBlank ·.byte) sig.cells bound
  rw [goesWith_iff, wordRemoval, Splice.remove, Span.contains, Bool.and_eq_true, decide_eq_true_eq,
    decide_eq_true_eq]
  dsimp only at skipped stops ⊢
  generalize ((sig.cells.drop (at_ + word.length)).takeWhile (Byte.isInlineBlank ·.byte)).length = n
    at skipped stops ⊢
  refine and_congr_right fun _ => ⟨fun before i low high c => skipped i c low (by omega), fun blank => ?_⟩
  by_contra beyond
  have here := List.getElem?_eq_getElem (by omega : at_ + word.length + n < sig.cells.length)
  have blank := blank _ (Nat.le_add_right _ _) (by omega) _ here
  rw [stops _ here] at blank
  cases blank

theorem wordRemoval_stop_le_of_apart {c : Cell} (found : WordAt word sig.cells at_) (is_word : word.IsWord)
    (before : at_ < place) (here : sig.cells[place]? = some c) (solid : Byte.isBlank c.byte = false)
    (apart : Byte.isIdent c.byte = false ∨ ∀ d ∈ sig.cells[place - 1]?, Byte.isIdent d.byte = false) :
    (sig.wordRemoval at_ word.length).span.stop ≤ place := by
  have upto := found.stop_le is_word before <| apart.imp_left fun sign d there =>
    Option.some.inj (here.symm.trans there) ▸ sign
  by_contra beyond
  have contains : (sig.wordRemoval at_ word.length).span.contains place = true := by
    rw [Span.contains, Bool.and_eq_true, decide_eq_true_eq, decide_eq_true_eq]
    exact ⟨Nat.le_of_lt before, Nat.lt_of_not_le beyond⟩
  rw [wordRemoval_contains (found.bound is_word.some_byte) (List.getElem?_eq_some_iff.mp here).1] at contains
  have blank := isBlank_of_isInlineBlank ((goesWith_iff.mp contains).2 place upto (Nat.le_refl _) c here)
  rw [solid] at blank
  cases blank

end

variable {sig : Signature} {markers : List Bytes} {blanks : List Cell} {tail : Bytes} {w : Splice}

theorem mem_markerRemovals_iff (words : ∀ m ∈ markers, m.IsWord) : w ∈ sig.markerRemovals markers ↔
    ∃ word at_, sig.MarkerAt markers word at_ ∧ w = sig.wordRemoval at_ word.length := by
  simp only [markerRemovals, List.mem_flatMap, List.mem_map, List.mem_filter, mem_words_iff,
    Bool.and_eq_true, Bool.not_eq_true', bne_iff_ne]
  constructor
  · rintro ⟨word, known, at_, ⟨⟨_, stands, _⟩, outside, other⟩, rfl⟩
    exact ⟨word, at_, ⟨known, stands, outside, other⟩, rfl⟩
  · rintro ⟨word, at_, ⟨known, stands, outside, other⟩, rfl⟩
    have some_word := (words word known).some_byte
    exact ⟨word, known, at_, ⟨⟨some_word, stands, Nat.zero_le _, stands.bound some_word⟩, outside, other⟩, rfl⟩

theorem WordAt.unique {word word' : Bytes} {at_ : Nat} (one : WordAt word sig.cells at_)
    (two : WordAt word' sig.cells at_) (is_word : word.IsWord) (is_word' : word'.IsWord) : word = word' := by
  have := List.length_pos_iff.mpr is_word.some_byte
  have := List.length_pos_iff.mpr is_word'.some_byte
  have := one.stop_le is_word (by omega : at_ < at_ + word'.length) (.inl two.after)
  have := two.stop_le is_word' (by omega : at_ < at_ + word.length) (.inl one.after)
  rw [List.prefix_iff_eq_take.mp one.text, List.prefix_iff_eq_take.mp two.text]
  congr 1
  omega

/-- A byte in front of code that is no identifier in code is none in a comment or a literal either. -/
theorem Stands.not_ident_before (stands : sig.Stands blanks tail) {place : Nat} {c d : Cell}
    (here : sig.cells[place]? = some c) (solid : c.isTrivia = false) (positive : 0 < place)
    (before : sig.cells[place - 1]? = some d) (apart : (d.isCode && Byte.isIdent d.byte) = false) :
    Byte.isIdent d.byte = false := by
  have bound := (List.getElem?_eq_some_iff.mp here).1
  obtain ⟨code, notBlank⟩ := code_of_not_trivia solid
  by_contra ident
  rw [Bool.not_eq_false] at ident
  have is_code := stands.reads.code_of_ident_before (i := place - 1) (d := c)
    (by rw [List.getElem?_append_left (by omega), before]) ident
    (by rw [Nat.sub_add_cancel positive, List.getElem?_append_left bound, here]) code
    (by rintro same; rw [same] at notBlank; cases notBlank)
  rw [is_code, ident] at apart
  cases apart

/-- A name begins with a tilde, or with a word of its own. -/
theorem Stands.name (stands : sig.Stands blanks tail) : ∃ c, sig.cells[sig.name.start]? = some c ∧
    c.isTrivia = false ∧ (c.byte = Byte.tilde ∨
      ∀ d, 0 < sig.name.start → sig.cells[sig.name.start - 1]? = some d → Byte.isIdent d.byte = false) := by
  obtain ⟨c, here, solid, start⟩ := of_nameAt stands.named
  exact ⟨c, here, solid, start.imp_right fun apart d positive before =>
    stands.not_ident_before here solid positive before (apart d positive before)⟩

/-- Markers are taken out apart from one another, and none reaches over the place where the name begins. -/
theorem removals_markers (stands : sig.Stands blanks tail) (words : ∀ m ∈ markers, m.IsWord)
    (text : Bytes) : Splice.Removals [.insert sig.name.start text] (sig.markerRemovals markers) where
  text w member := by
    obtain ⟨_, _, _, rfl⟩ := (mem_markerRemovals_iff words).mp member
    rfl
  length w member := by
    obtain ⟨word, at_, found, rfl⟩ := (mem_markerRemovals_iff words).mp member
    have := List.length_pos_iff.mpr (words word found.known).some_byte
    simp only [wordRemoval, Splice.remove]
    omega
  order w member := by
    rw [List.mem_singleton.mp member]
    exact Nat.le_refl _
  alone a first b second := by
    obtain ⟨word, at_, found, rfl⟩ := (mem_markerRemovals_iff words).mp first
    obtain ⟨word', at_', found', rfl⟩ := (mem_markerRemovals_iff words).mp second
    have apart {word word' : Bytes} {at_ at_' : Nat} (found : sig.MarkerAt markers word at_)
        (found' : sig.MarkerAt markers word' at_') (lt : at_ < at_') :
        (sig.wordRemoval at_ word.length).span.stop ≤ at_' := by
      have is_word := words word' found'.known
      have here := List.prefix_iff_getElem?.mp found'.stands.text 0 (List.length_pos_iff.mpr is_word.some_byte)
      rw [bytes, List.getElem?_map, List.getElem?_drop, Option.map_eq_some_iff] at here
      obtain ⟨c, here, same⟩ := here
      refine wordRemoval_stop_le_of_apart found.stands (words word found.known) lt here ?_ <| .inr fun d before =>
        found'.stands.before d (by omega) before
      have ident := is_word.ident _ (List.getElem_mem (List.length_pos_iff.mpr is_word.some_byte))
      rw [← same] at ident
      cases blank : Byte.isBlank c.byte with
      | false => rfl
      | true => rw [not_ident_of_blank blank] at ident; cases ident
    rcases Nat.lt_trichotomy at_ at_' with lt | rfl | gt
    · exact .inr (.inl (apart found found' lt))
    · rw [found.stands.unique found'.stands (words word found.known) (words word' found'.known)]
      exact .inl rfl
    · exact .inr (.inr (apart found' found gt))
  apart w member r removal := by
    rw [List.mem_singleton.mp member]
    obtain ⟨word, at_, found, rfl⟩ := (mem_markerRemovals_iff words).mp removal
    obtain ⟨c, here, solid, apart⟩ := stands.name
    rcases Nat.lt_or_ge at_ sig.name.start with before | behind
    · refine .inr (wordRemoval_stop_le_of_apart found.stands (words word found.known) before here
        (code_of_not_trivia solid).2 (apart.imp (fun tilde => by rw [tilde]; rfl) fun first d there => ?_))
      exact first d (by omega) there
    · exact .inl behind

/-- What is taken out of a signature from a byte on that is kept begins with a marker. -/
theorem not_ident_of_taken {i : Nat} {c : Cell} (kept : ¬sig.Taken markers i)
    (taken : sig.Taken markers (i + 1)) (here : sig.cells[i]? = some c) : Byte.isIdent c.byte = false := by
  obtain ⟨word, at_, found, goes⟩ := taken
  obtain ⟨upto, blank⟩ := goesWith_iff.mp goes
  by_cases first : at_ = i + 1
  · subst first
    exact found.stands.before c (Nat.succ_pos i) here
  · exact absurd ⟨word, at_, found, goesWith_iff.mpr ⟨by omega, fun j low high => blank j low (by omega)⟩⟩ kept

/-- What is taken out of a signature ends with a blank, or with the end of a word. -/
theorem not_ident_behind_taken {i : Nat} {c d : Cell} (taken : sig.Taken markers i)
    (kept : ¬sig.Taken markers (i + 1)) (here : sig.cells[i]? = some c) (next : sig.cells[i + 1]? = some d)
    (ident : Byte.isIdent c.byte = true) : Byte.isIdent d.byte = false := by
  obtain ⟨word, at_, found, goes⟩ := taken
  obtain ⟨upto, blank⟩ := goesWith_iff.mp goes
  have ends : at_ + word.length ≤ i + 1 := by
    by_contra inside
    exact kept ⟨word, at_, found, goesWith_iff.mpr ⟨by omega, by omega⟩⟩
  by_cases last : at_ + word.length = i + 1
  · exact found.stands.after d (last ▸ next)
  · have inline := blank i (by omega) (Nat.le_refl i) c here
    rw [not_ident_of_blank (isBlank_of_isInlineBlank inline)] at ident
    cases ident

end Signature

end OutOfLine
