import OutOfLine.Proofs.Member.Head
import OutOfLine.Proofs.Signature.Marker

/-! The qualifier of a helper is put in front of the declaration, outside all template argument
lists, if it is not there. A signature that begins with the letters of `template` without a list
behind them gets none. -/

namespace OutOfLine

namespace Callable

variable {text : Bytes}

theorem paren_of_parameterListFrom? {all : Bytes} {angle at_ paren : Nat} (left : all.drop at_ = text)
    (found : parameterListFrom? angle at_ text = some paren) : all[paren]? = some Byte.openParen := by
  induction text generalizing angle at_ with
  | nil => cases found
  | cons b text ih =>
    have ih {angle : Nat} := @ih angle (at_ + 1) (by rw [← List.tail_drop, left, List.tail_cons])
    unfold parameterListFrom? at found
    split at found
    · exact ih found
    split at found
    · exact ih found
    split at found
    · cases found
    split at found
    next opens =>
      cases found
      rw [← List.head?_drop, left, List.head?_cons, opens.1]
    next => exact ih found

theorem stop_of_plainName? {name : Span} (found : plainName? text = some name) :
    name.stop = lengthToLastToken text := by
  simp only [plainName?, Option.bind_eq_bind, Option.bind_eq_some_iff] at found
  obtain ⟨_, _, _, _, same⟩ := found
  cases same
  rfl

/-- The name of an operator is a word only if it is the keyword itself. -/
theorem operator_of_isWord {keyword : Nat} {name : Span}
    (begins : utf8 "operator" <+: text.drop keyword)
    (ends : Bytes.atWordEnd (text.drop (keyword + (utf8 "operator").length)) = true)
    (found : operatorName? text keyword = some name) (word : Bytes.IsWord (name.slice text)) :
    name.slice text = utf8 "operator" := by
  have length : (utf8 "operator").length = 8 := by decide +kernel
  have solid : ∀ b ∈ (utf8 "operator")[7]?, Byte.isBlank b = false := by decide +kernel
  simp only [operatorName?, Option.bind_eq_bind, Option.bind_eq_some_iff, length] at found
  obtain ⟨distance, _, same⟩ := found
  rw [length] at ends
  obtain ⟨stop, behind, same⟩ : ∃ stop, keyword + 8 ≤ stop ∧
      some (Span.mk keyword (keyword + lengthToLastToken ((text.take stop).drop keyword))) = some name := by
    refine ⟨_, ?_, same⟩
    split <;> omega
  obtain rfl := Option.some.inj same
  have blank := blank_of_lengthToLastToken ((text.take stop).drop keyword)
  have upto := (lengthToLastToken_inside begins (by omega : keyword < stop)).2
  generalize lengthToLastToken ((text.take stop).drop keyword) = last at blank upto word ⊢
  have own : (Span.mk keyword (keyword + last)).slice text = (text.drop keyword).take last := by
    rw [Span.slice, Span.length, Nat.add_sub_cancel_left]
  rw [own] at word ⊢
  have eight : last = 8 := by
    apply Nat.le_antisymm
    · by_contra beyond
      have here := List.getElem?_eq_getElem (by omega : keyword + 8 < text.length)
      have ident := word.ident text[keyword + 8] (List.mem_of_getElem? (i := 8) (by
        rw [List.getElem?_take_of_lt (by omega), List.getElem?_drop, here]))
      rw [Bytes.atWordEnd, List.head?_drop, here] at ends
      simp [ident] at ends
    · by_contra short
      have inside := List.prefix_iff_getElem?.mp begins 7 (by omega)
      rw [List.getElem?_drop] at inside
      have white := blank (utf8 "operator")[7] (List.mem_of_getElem? (i := 7 - last) (by
        rw [List.getElem?_drop, Nat.add_sub_cancel' (by omega), List.getElem?_drop,
          List.getElem?_take_of_lt (by omega), inside]))
      rw [solid _ (List.getElem?_eq_getElem (by omega))] at white
      cases white
  rw [List.prefix_iff_eq_take.mp begins, length, eight]

/-- Behind an identifier that is the name of a function stand only blanks up to its parameter list. -/
theorem list_of_name? {name : Span} (found : name? text = some name) (word : Bytes.IsWord (name.slice text))
    (other : name.slice text ≠ utf8 "operator") : ∃ paren, name.stop ≤ paren ∧
      text[paren]? = some Byte.openParen ∧
      ∀ i, name.stop ≤ i → i < paren → ∀ b ∈ text[i]?, Byte.isBlank b = true := by
  unfold name? at found
  split at found
  next keyword operator =>
    exact absurd (operator_of_isWord (begins_of_findWordFrom? List.drop_zero operator)
      (end_of_findWordFrom? List.drop_zero operator) found word) other
  next =>
    simp only [Option.bind_eq_bind, Option.bind_eq_some_iff] at found
    obtain ⟨paren, list, _, _, plain⟩ := found
    have opens := paren_of_parameterListFrom? List.drop_zero list
    have bound := (List.getElem?_eq_some_iff.mp opens).1
    have inside := (plainName?_inside plain).2
    rw [List.length_take] at inside
    refine ⟨paren, by omega, opens, fun i low high b here => ?_⟩
    apply blank_of_lengthToLastToken (text.take paren) b
    rw [← stop_of_plainName? plain]
    apply List.mem_of_getElem? (i := i - name.stop)
    rw [List.getElem?_drop, Nat.add_sub_cancel' low, List.getElem?_take_of_lt high]
    exact here

end Callable

namespace Signature
open Cell

/-- The name is the identifier `word`, and nothing but white space and comments stands between it and the
parenthesis at `paren`. -/
structure Named (sig : Signature) (word : Bytes) (paren : Nat) : Prop where
  is_word : word.IsWord
  own : sig.name.slice sig.cells = uniform .code word
  upto : sig.name.stop ≤ paren
  opens : ∃ c, sig.cells[paren]? = some c ∧ c.isCodeByte Byte.openParen = true
  blank : ∀ i, sig.name.stop ≤ i → i < paren → ∀ c, sig.cells[i]? = some c → Byte.isBlank c.view = true

end Signature

namespace Cell

theorem eq_uniform {cells : List Cell} (code : ∀ c ∈ cells, c.isCode = true) :
    cells = uniform .code (bytes cells) := by
  rw [uniform, bytes, List.map_map]
  refine ((List.map_congr_left fun c member => ?_).trans (List.map_id cells)).symm
  obtain ⟨b, cls⟩ := c
  have own := code _ member
  rw [isCode, beq_iff_eq] at own
  exact congrArg (Cell.mk b) own.symm

theorem Reads.eq_uniform {cells more : List Cell} {tail : Bytes} (read : Reads [] (cells ++ more) tail)
    {span : Span} {first : Cell} (here : cells[span.start]? = some first) (code : first.isCode = true)
    (ident : ∀ b ∈ bytes (span.slice cells), Byte.isIdent b = true) :
    span.slice cells = uniform .code (bytes (span.slice cells)) := by
  have bound := (List.getElem?_eq_some_iff.mp here).1
  have start := read.from_code fun c (found : (cells ++ more)[span.start]? = some c) => by
    rw [List.getElem?_append_left bound, here] at found
    exact Option.some.inj found ▸ code
  have parts : (cells ++ more).drop span.start =
      span.slice cells ++ ((cells.drop span.start).drop span.length ++ more) := by
    rw [List.drop_append_of_le_length (Nat.le_of_lt bound), ← List.append_assoc, Span.slice,
      List.take_append_drop]
  rw [parts] at start
  exact Cell.eq_uniform <| start.code_of_plain fun c member =>
    not_delimiter_of_ident (ident c.byte (List.mem_map_of_mem member))

end Cell

theorem Span.slice_slice {inner outer : Span} (inside : inner.stop ≤ outer.length) (items : List α) :
    inner.slice (outer.slice items) = (inner.shift outer.start).slice items := by
  have upto : inner.length ≤ outer.length - inner.start := Nat.sub_le_sub_right inside _
  rw [slice, slice, slice, List.drop_take, List.take_take, List.drop_drop, Nat.min_eq_left upto,
    length_shift, Nat.add_comm]
  rfl

open Cell

/-- What the name of a function is, when that is an identifier. -/
theorem Callable.Placed.exists_named {s : Scan} {c : Callable} {stop : Nat} (placed : c.Placed s stop)
    (read : Reads [] s.cells []) (word : (s.slice c.name).IsWord) (other : s.slice c.name ≠ utf8 "operator") :
    ∃ paren, (Signature.of s c).Named (s.slice c.name) paren := by
  have stands := placed.stands read
  obtain ⟨name, named, shifted⟩ := placed.named
  have within := (Callable.name?_inside named).2
  have same : (Signature.of s c).name = name := by simp [Signature.of, shifted, Span.shift]
  have whole : (Signature.of s c).cells = c.signature.slice s.cells := rfl
  have text : bytes (name.slice (Signature.of s c).cells) = s.slice c.name := by
    rw [length_views, Span.slice] at within
    rw [whole, Span.slice_slice (Nat.le_trans within (List.length_take_le _ _)), shifted, Scan.slice]
  obtain ⟨first, at_first, solid, _⟩ := stands.name
  rw [same] at at_first
  have own := stands.reads.eq_uniform at_first (code_of_not_trivia solid).1 fun b member =>
    word.ident b (text ▸ member)
  rw [text] at own
  have seen : name.slice (views (Signature.of s c).cells) = s.slice c.name := by
    rw [views, Span.slice, ← List.map_drop, ← List.map_take, ← Span.slice, own]
    exact views_code fun b member => isAscii_of_isIdent (word.ident b member)
  rw [← seen] at word other
  obtain ⟨paren, upto, opens, blank⟩ := Callable.list_of_name? named word other
  rw [seen] at word
  have cell {i : Nat} {b : Byte} (found : (views (Signature.of s c).cells)[i]? = some b) :
      ∃ d, (Signature.of s c).cells[i]? = some d ∧ d.view = b := by
    rwa [views, List.getElem?_map, Option.map_eq_some_iff] at found
  refine ⟨paren, word, same ▸ own, same ▸ upto, ?_, fun i low high d here => ?_⟩
  · obtain ⟨d, here, view⟩ := cell opens
    obtain ⟨byte, code⟩ := of_view view (by decide) (by decide)
    exact ⟨d, here, by rw [isCodeByte, byte, code]; rfl⟩
  · refine blank i (same ▸ low) high _ ?_
    rw [← whole, views, List.getElem?_map, here]
    rfl

namespace Signature

variable {sig : Signature} {word : Bytes} {paren : Nat} {blanks : List Cell} {tail : Bytes} {p : Span}
  {options : Options} {w : Splice}

theorem Named.ident (named : sig.Named word paren) {i : Nat} (low : sig.name.start ≤ i)
    (high : i < sig.name.stop) {c : Cell} (here : sig.cells[i]? = some c) : Byte.isIdent c.byte = true := by
  have inside : c ∈ sig.name.slice sig.cells := Span.mem_slice_iff.mpr ⟨i, low, high, here⟩
  rw [named.own] at inside
  obtain ⟨b, member, rfl⟩ := List.mem_map.mp inside
  exact named.is_word.ident b member

theorem Named.lt (named : sig.Named word paren) : sig.name.start < sig.name.stop := by
  by_contra empty
  have own := named.own
  rw [Span.slice, Span.length, Nat.sub_eq_zero_of_le (Nat.le_of_not_lt empty), List.take_zero] at own
  exact named.is_word.some_byte (List.map_eq_nil_iff.mp own.symm)

theorem Named.start_lt (named : sig.Named word paren) : sig.name.start < paren :=
  Nat.lt_of_lt_of_le named.lt named.upto

theorem Named.here (named : sig.Named word paren) : sig.cells[paren]? = some ⟨Byte.openParen, .code⟩ := by
  obtain ⟨c, here, opens⟩ := named.opens
  rw [here, eq_of_isCodeByte opens]

/-- No identifier ends right in front of the name. -/
theorem Named.apart (named : sig.Named word paren) (stands : sig.Stands blanks tail) :
    ∀ d ∈ sig.aheadOfName.getLast?, (d.isCode && Byte.isIdent d.byte) = false := by
  obtain ⟨c, here, _, start⟩ := stands.name
  have bound := (List.getElem?_eq_some_iff.mp here).1
  have ident := named.ident (Nat.le_refl _) named.lt here
  intro d last
  by_cases none : sig.name.start = 0
  · rw [aheadOfName, none] at last
    cases last
  rw [aheadOfName, getLast?_take (Nat.le_of_lt bound) (Nat.pos_of_ne_zero none)] at last
  rcases start with tilde | apart
  · rw [tilde] at ident
    cases ident
  · rw [apart d (Nat.pos_of_ne_zero none) last, Bool.and_false]

theorem Named.paren_le (named : sig.Named word paren) {i : Nat} {c : Cell} (behind : sig.name.stop ≤ i)
    (here : sig.cells[i]? = some c) (solid : Byte.isBlank c.view = false) : paren ≤ i := by
  by_contra before
  rw [named.blank i behind (Nat.lt_of_not_le before) c here] at solid
  cases solid

theorem Named.paren_le_start (named : sig.Named word paren)
    (list : parameters? sig.cells sig.name = some p) : paren ≤ p.start := by
  obtain ⟨behind, _, _, ⟨c, here, opens⟩, _⟩ := parameters?_spec list
  exact named.paren_le behind here (by rw [view_of_isCodeByte (by decide) opens]; rfl)

theorem Named.marker_apart (named : sig.Named word paren) {markers : List Bytes} {marker : Bytes} {at_ : Nat}
    (found : sig.MarkerAt markers marker at_) (is_word : marker.IsWord) (behind : sig.name.start ≤ at_) :
    paren < at_ := by
  have bound := found.stands.bound is_word.some_byte
  have positive := List.length_pos_iff.mpr is_word.some_byte
  have here := List.getElem?_eq_getElem (by omega : at_ < sig.cells.length)
  have ident : Byte.isIdent sig.cells[at_].byte = true := by
    have text := List.prefix_iff_getElem?.mp found.stands.text 0 positive
    rw [bytes, List.getElem?_map, List.getElem?_drop, Nat.add_zero, here] at text
    exact Option.some.inj text ▸ is_word.ident _ (List.getElem_mem positive)
  have after : sig.name.stop ≤ at_ := by
    by_contra inside
    have other := found.other
    have before := List.getElem?_eq_getElem (by omega : at_ - 1 < sig.cells.length)
    have own := named.ident (by omega) (by omega) before
    rw [found.stands.before _ (by omega) before] at own
    cases own
  have view := view_of_ident (found.stands.code _ here) ident
  have solid : Byte.isBlank sig.cells[at_].view = false := by
    rw [view]
    cases blank : Byte.isBlank sig.cells[at_].byte with
    | false => rfl
    | true => rw [not_ident_of_blank blank] at ident; cases ident
  refine Nat.lt_of_le_of_ne (named.paren_le after here solid) ?_
  rintro rfl
  obtain ⟨c, opening, opens⟩ := named.opens
  obtain rfl := Option.some.inj (here.symm.trans opening)
  rw [(of_isCodeByte opens).1] at ident
  cases ident

/-- An edit of a helper takes out a marker in front of its name, begins behind the parenthesis, or puts in
the qualifier. -/
theorem Named.helperEdits_cases (named : sig.Named word paren) (stands : sig.Stands blanks tail)
    (words : ∀ m ∈ options.markers, m.IsWord) (member : w ∈ Definition.helperEdits sig options) :
    (∃ marker at_, sig.MarkerAt options.markers marker at_ ∧ w = sig.wordRemoval at_ marker.length ∧
      w.span.stop ≤ sig.name.start) ∨ paren < w.span.start ∨
    sig.qualifierInsertion? options.qualifier = some w ∧ ∃ place, sig.qualifierPlace? = some place ∧
      w = .insert place (options.qualifier ++ [Byte.space]) := by
  simp only [Definition.helperEdits, List.mem_append, Option.mem_toList] at member
  rcases member with (taken | const) | qualifier
  · have apart := (removals_markers stands words []).apart _ (.head _) w taken
    obtain ⟨marker, at_, found, rfl⟩ := (mem_markerRemovals_iff words).mp taken
    rcases apart with behind | ahead
    · exact .inr (.inl (named.marker_apart found (words marker found.known) behind))
    · exact .inl ⟨marker, at_, found, rfl, ahead⟩
  · obtain ⟨p, at_, list, after, _, rfl⟩ := of_mem_constRemovals const
    have list := stands.parameters.symm.trans list
    have := named.paren_le_start list
    have := (parameters?_spec list).2.1
    right; left
    simp only [wordRemoval, Splice.remove]
    omega
  · exact .inr (.inr ⟨qualifier, of_qualifierInsertion? qualifier⟩)

/-- Every edit of a helper ends in front of its name, or begins behind the parenthesis. -/
theorem Named.helperEdits_apart (named : sig.Named word paren) (stands : sig.Stands blanks tail)
    (words : ∀ m ∈ options.markers, m.IsWord) (member : w ∈ Definition.helperEdits sig options) :
    w.span.stop ≤ sig.name.start ∨ paren < w.span.start := by
  rcases named.helperEdits_cases stands words member with
    ⟨_, _, _, _, ahead⟩ | behind | ⟨_, place, found, rfl⟩
  · exact .inl ahead
  · exact .inr behind
  · exact .inl (qualifierPlace?_le found)

theorem Named.defaultRemovals_behind (named : sig.Named word paren)
    (parameters : sig.parameters = parameters? sig.cells sig.name) (member : w ∈ sig.defaultRemovals) :
    paren < w.span.start := by
  obtain ⟨p, list, after, _⟩ := defaultRemovals_spec parameters member
  exact Nat.lt_of_le_of_lt (named.paren_le_start (parameters.symm.trans list)) after

end Signature

namespace Cell

theorem isCodeByte_iff {c : Cell} {b : Byte} (ascii : Byte.isAscii b = true) (space : b ≠ Byte.space)
    (newline : b ≠ Byte.newline) : c.isCodeByte b = true ↔ c.view = b := by
  refine ⟨view_of_isCodeByte ascii, fun view => ?_⟩
  obtain ⟨byte, code⟩ := of_view view space newline
  rw [isCodeByte, byte, code, beq_self_eq_true]
  rfl

theorem WordBreak.take {cells : List Cell} {at_ n : Nat} (break_ : WordBreak cells at_) (upto : at_ ≤ n) :
    WordBreak (cells.take n) at_ := by
  rw [WordBreak, List.take_take, Nat.min_eq_left upto, List.drop_take]
  intro word
  have apart := break_ word
  rw [views, List.head?_map] at apart ⊢
  rw [List.head?_take]
  split
  · rfl
  · exact apart

end Cell

/-- Options whose markers and qualifier are different words. -/
structure Options.Qualifies (options : Options) : Prop where
  markers : ∀ m ∈ options.markers, m.IsWord
  qualifier : options.qualifier.IsWord
  other : options.qualifier ∉ options.markers

theorem Options.qualifies_default : Options.Qualifies {} := ⟨by decide +kernel, by decide +kernel, by decide⟩

namespace Signature
open Cell
open Bytes (angleStep angleDepth AnglesClose isAngle outside)

section Angle

variable {depth at_ k : Nat} {c : Cell} {cells : List Cell}

theorem tokens_cons_level : angleDepth depth (tokens (c :: cells)) =
    angleDepth (angleStep depth [c.view]) (tokens cells) := Bytes.angleDepth_cons ..

theorem closingAngleFrom?_cons (depth at_ : Nat) (open_ : c.view = Byte.greater → 0 < depth) :
    closingAngleFrom? depth at_ (c :: cells) =
      if c.view = Byte.greater ∧ depth = 1 then some at_
      else closingAngleFrom? (angleStep depth [c.view] : Nat) (at_ + 1) cells := by
  rw [closingAngleFrom?]
  simp only [isCodeByte_iff (b := Byte.less) (by decide) (by decide) (by decide),
    isCodeByte_iff (b := Byte.greater) (by decide) (by decide) (by decide)]
  by_cases less : c.view = Byte.less
  · rw [if_pos less, if_neg (by omega), less, if_neg (by rintro ⟨same, _⟩; cases same)]
    rfl
  · by_cases greater : c.view = Byte.greater
    · have positive := open_ greater
      rw [if_neg less, if_pos greater, greater]
      by_cases last : depth = 1
      · rw [if_pos (by omega), if_pos ⟨rfl, last⟩]
      · have step : ((angleStep depth [Byte.greater] : Nat) : Int) = depth - 1 := by
          have : angleStep depth [Byte.greater] = depth - 1 := rfl
          omega
        rw [if_neg (by omega), if_neg (by omega), step]
    · have plain : isAngle [c.view] = false := by simp [isAngle, less, greater]
      rw [if_neg less, if_neg greater, if_neg (by simp [greater]), Bytes.angleStep_of_plain plain]

theorem closingAngleFrom?_level (closes : AnglesClose depth (tokens cells))
    (found : closingAngleFrom? depth at_ cells = some k) :
    angleDepth depth (tokens (cells.take (k - at_ + 1))) = 0 := by
  induction cells generalizing depth at_ with
  | nil => cases found
  | cons c cells ih =>
    obtain ⟨open_, closes⟩ := Bytes.anglesClose_cons.mp closes
    rw [closingAngleFrom?_cons depth at_ open_] at found
    rw [List.take_succ_cons, tokens_cons_level]
    split at found
    next last =>
      cases found
      rw [Nat.sub_self, List.take_zero, last.1, last.2]
      rfl
    next =>
      have later := ih closes found
      have after := (closingAngleFrom?_spec found).1
      have shift : k - at_ = k - (at_ + 1) + 1 := by omega
      rw [shift]
      exact later

theorem exists_closingAngle (closes : AnglesClose depth (tokens cells)) (at_ : Nat)
    (opens : 0 < depth ∨ ∃ c ∈ cells, c.isCodeByte Byte.less = true) :
    ∃ k, closingAngleFrom? depth at_ cells = some k := by
  induction cells generalizing depth at_ with
  | nil =>
    have zero : depth = 0 := closes
    simp [zero] at opens
  | cons c cells ih =>
    obtain ⟨open_, closes⟩ := Bytes.anglesClose_cons.mp closes
    rw [closingAngleFrom?_cons depth at_ open_]
    split
    · exact ⟨_, rfl⟩
    next goes_on =>
      apply ih closes
      by_cases less : c.view = Byte.less
      · rw [less]
        exact .inl (Nat.succ_pos depth)
      by_cases greater : c.view = Byte.greater
      · have := open_ greater
        have more : depth ≠ 1 := fun one => goes_on ⟨greater, one⟩
        left
        rw [greater]
        exact Nat.sub_pos_of_lt (by omega)
      have plain : isAngle [c.view] = false := by simp [isAngle, less, greater]
      rw [Bytes.angleStep_of_plain plain]
      rcases opens with positive | ⟨d, member, begins⟩
      · exact .inl positive
      · refine .inr ⟨d, (List.mem_cons.mp member).resolve_left ?_, begins⟩
        rintro rfl
        exact less (view_of_isCodeByte (by decide) begins)

theorem closingAngleFrom?_eq_none (closes : AnglesClose 0 (tokens cells)) (at_ : Nat)
    (none : ∀ c ∈ cells, c.isCodeByte Byte.less = false) : closingAngleFrom? 0 at_ cells = .none := by
  induction cells generalizing at_ with
  | nil => rfl
  | cons c cells ih =>
    obtain ⟨open_, closes⟩ := Bytes.anglesClose_cons.mp closes
    have less : c.view ≠ Byte.less := fun same => by
      have own := none c (.head _)
      rw [(isCodeByte_iff (by decide) (by decide) (by decide)).mpr same] at own
      cases own
    have greater : c.view ≠ Byte.greater := fun same => Nat.lt_irrefl 0 (open_ same)
    have step : angleStep 0 [c.view] = 0 := Bytes.angleStep_of_plain (by simp [isAngle, less, greater]) 0
    rw [step] at closes
    have stays := @closingAngleFrom?_cons c cells 0 at_ open_
    rw [if_neg (fun last => greater last.1), step] at stays
    exact stays.trans (ih closes _ fun d member => none d (.tail _ member))

end Angle

variable {sig : Signature} {word : Bytes} {paren place : Nat} {blanks : List Cell} {tail : Bytes}
  {options : Options} {w : Splice}

/-- A signature that begins with the letters of `template` and has no list behind them in front of its
name. -/
structure Bare (sig : Signature) : Prop where
  begins : utf8 "template" <+: views sig.aheadOfName
  unlisted : ∀ c ∈ sig.aheadOfName, c.isCodeByte Byte.less = false

instance (sig : Signature) : Decidable sig.Bare :=
  decidable_of_iff ((utf8 "template" <+: views sig.aheadOfName) ∧
      ∀ c ∈ sig.aheadOfName, c.isCodeByte Byte.less = false)
    ⟨fun ⟨begins, unlisted⟩ => ⟨begins, unlisted⟩, fun bare => ⟨bare.begins, bare.unlisted⟩⟩

theorem qualifierPlace?_eq_none_iff (closes : AnglesClose 0 (tokens sig.aheadOfName)) :
    sig.qualifierPlace? = none ↔ sig.Bare := by
  unfold qualifierPlace?
  dsimp only
  split
  next template =>
    rw [List.isPrefixOf_iff_prefix] at template
    constructor
    · intro none
      refine ⟨template, fun c member => ?_⟩
      by_contra opens
      obtain ⟨k, found⟩ := exists_closingAngle closes 0 (.inr ⟨c, member, by simpa using opens⟩)
      rw [Nat.cast_zero] at found
      rw [found] at none
      cases none
    · intro bare
      rw [closingAngleFrom?_eq_none closes 0 bare.unlisted]
      rfl
  next other =>
    refine ⟨(fun none => by cases none), fun bare => absurd ?_ other⟩
    exact List.isPrefixOf_iff_prefix.mpr bare.begins

/-- A qualifier is put outside all lists. -/
theorem qualifierPlace?_level (closes : AnglesClose 0 (tokens sig.aheadOfName))
    (found : sig.qualifierPlace? = some place) : angleDepth 0 (tokens (sig.aheadOfName.take place)) = 0 := by
  unfold qualifierPlace? at found
  dsimp only at found
  split at found
  · simp only [Option.bind_eq_bind, Option.bind_eq_some_iff] at found
    obtain ⟨closing, closed, same⟩ := found
    have level := @closingAngleFrom?_level 0 0 closing sig.aheadOfName closes closed
    cases same
    have trivia := List.all_takeWhile (p := Cell.isTrivia) (l := sig.aheadOfName.drop (closing + 1))
    rw [List.take_add, ← List.prefix_iff_eq_take.mp (List.takeWhile_prefix _), tokens_append_white]
    · exact level
    · intro c member
      have own := List.all_eq_true.mp trivia c member
      cases code : c.isCode with
      | false => exact white_of_not_code code
      | true =>
        rw [isTrivia, code, Bool.not_true, Bool.false_or] at own
        exact white_of_byte (Byte.isWhite_of_isBlank own)
  · cases found
    rfl

theorem wordRemoval_tokens (stands : sig.Stands blanks tail) {at_ : Nat} (found : WordAt word sig.cells at_)
    (is_word : word.IsWord) : tokens ((sig.wordRemoval at_ word.length).span.slice sig.cells) = [word] := by
  have bound := found.bound is_word.some_byte
  have positive := List.length_pos_iff.mpr is_word.some_byte
  have here := List.getElem?_eq_getElem (by omega : at_ < sig.cells.length)
  have text : bytes ((Span.mk at_ (at_ + word.length)).slice sig.cells) = word := by
    rw [Span.slice, Span.length, Nat.add_sub_cancel_left, bytes, List.map_take]
    exact (List.prefix_iff_eq_take.mp found.text).symm
  have own := @Reads.eq_uniform _ _ _ stands.reads ⟨at_, at_ + word.length⟩ _ here (found.code _ here)
    (by rw [text]; exact is_word.ident)
  rw [text] at own
  obtain ⟨_, skipped, _⟩ := skipped_spec (Byte.isInlineBlank ·.byte) sig.cells bound
  rw [wordRemoval, Splice.remove, ← Span.slice_append_slice (Nat.le_add_right at_ word.length)
    (Nat.le_add_right _ _), own, tokens_append_white, tokens]
  · exact (congrArg Bytes.tokens (views_code fun b member => isAscii_of_isIdent (is_word.ident b member))).trans
      is_word.tokens
  · intro c member
    obtain ⟨i, low, high, inside⟩ := Span.mem_slice_iff.mp member
    exact white_of_byte (Byte.isWhite_of_isBlank (isBlank_of_isInlineBlank (skipped i c low high inside)))

/-- A qualifier stands behind no identifier, not even one in a comment. -/
theorem not_ident_before_place (stands : sig.Stands blanks tail) (found : sig.qualifierPlace? = some place) :
    ∃ c, sig.cells[place]? = some c ∧ c.isTrivia = false ∧
      ∀ d, 0 < place → sig.cells[place - 1]? = some d → Byte.isIdent d.byte = false := by
  obtain ⟨⟨c, here, solid⟩, before⟩ := qualifierPlace?_spec stands found
  refine ⟨c, here, solid, fun d positive there => ?_⟩
  rcases before d positive there with trivia | same | same
  · exact stands.not_ident_before here solid positive there (apart_of_trivia trivia)
  · rw [same]
    rfl
  · rw [same]
    rfl

def editsAhead (sig : Signature) (options : Options) (paren : Nat) : List Splice :=
  (Definition.helperEdits sig options).filter (·.span.start < paren)

theorem ahead_getElem? {i : Nat} (before : i < sig.name.start) : sig.aheadOfName[i]? = sig.cells[i]? := by
  rw [aheadOfName, List.getElem?_take_of_lt before]

/-- What the tokens in front of the name become: some markers are gone, and the qualifier stands among those
outside all lists if it did before or the signature is not bare, and not twice if it did not. -/
structure QualifiedFront (sig : Signature) (options : Options) (front : List Bytes) : Prop where
  others : front.filter (!(options.qualifier :: options.markers).contains ·) =
    (tokens sig.aheadOfName).filter (!(options.qualifier :: options.markers).contains ·)
  qualified : options.qualifier ∈ outside 0 front ↔
    options.qualifier ∈ outside 0 (tokens sig.aheadOfName) ∨ ¬sig.Bare
  once : options.qualifier ∉ outside 0 (tokens sig.aheadOfName) →
    (outside 0 front).count options.qualifier ≤ 1

theorem length_qualifierInsertion {qualifier : Bytes} (is_word : qualifier.IsWord)
    (closes : AnglesClose 0 (tokens sig.aheadOfName)) :
    (sig.qualifierInsertion? qualifier).toList.length =
      if qualifier ∈ outside 0 (tokens sig.aheadOfName) ∨ sig.Bare then 0 else 1 := by
  have known : (Callable.words (views sig.aheadOfName)).contains qualifier = true ↔
      qualifier ∈ outside 0 (tokens sig.aheadOfName) := by
    rw [List.contains_iff_mem, Callable.mem_words_iff is_word, tokens]
  have some_word : qualifier.isEmpty = false := by simpa using is_word.some_byte
  rw [qualifierInsertion?, some_word, Bool.false_or]
  by_cases there : qualifier ∈ outside 0 (tokens sig.aheadOfName)
  · rw [if_pos (known.mpr there), if_pos (.inl there)]
    rfl
  · rw [if_neg (mt known.mp there)]
    cases place : sig.qualifierPlace? with
    | none =>
      rw [if_pos (.inr ((qualifierPlace?_eq_none_iff closes).mp place))]
      rfl
    | some place =>
      rw [if_neg]
      · rfl
      · rintro (before | bare)
        · exact there before
        · rw [(qualifierPlace?_eq_none_iff closes).mpr bare] at place
          cases place

section Ahead

variable (named : sig.Named word paren) (stands : sig.Stands blanks tail) (qualifies : options.Qualifies)
include named stands qualifies

theorem Named.mem_editsAhead (member : w ∈ sig.editsAhead options paren) : w.span.stop ≤ sig.name.start ∧
    ((∃ marker at_, sig.MarkerAt options.markers marker at_ ∧ w = sig.wordRemoval at_ marker.length) ∨
      ∃ place, sig.qualifierPlace? = some place ∧ w = .insert place (options.qualifier ++ [Byte.space])) := by
  obtain ⟨edit, before⟩ := List.mem_filter.mp member
  rw [decide_eq_true_eq] at before
  rcases named.helperEdits_cases stands qualifies.markers edit with
    ⟨marker, at_, found, same, ahead⟩ | behind | ⟨_, place, found, rfl⟩
  · exact ⟨ahead, .inl ⟨marker, at_, found, same⟩⟩
  · omega
  · exact ⟨qualifierPlace?_le found, .inr ⟨place, found, rfl⟩⟩

/-- The edits in front of the parameter list take out words and put in the qualifier. -/
theorem Named.rewords (closes : AnglesClose 0 (tokens sig.aheadOfName))
    (member : w ∈ sig.editsAhead options paren) :
    w.Rewords sig.aheadOfName options.markers options.qualifier := by
  obtain ⟨upto, own⟩ := named.mem_editsAhead stands qualifies member
  have size : sig.aheadOfName.length = sig.name.start := by
    obtain ⟨_, here, _⟩ := stands.name
    have := (List.getElem?_eq_some_iff.mp here).1
    rw [aheadOfName, List.length_take]
    omega
  rcases own with ⟨marker, at_, found, rfl⟩ | ⟨place, found, rfl⟩
  · have is_word := qualifies.markers marker found.known
    have break_ := wordRemoval_break found.stands is_word.some_byte
    have taken := wordRemoval_tokens stands found.stands is_word
    have order : (sig.wordRemoval at_ marker.length).span.start ≤
        (sig.wordRemoval at_ marker.length).span.stop := by
      simp only [wordRemoval, Splice.remove]
      omega
    refine ⟨⟨order, by omega, fun c positive here => ?_, fun c last => ?_⟩, fun _ => ⟨?_, marker, found.known, ?_⟩,
      fun some_text => absurd rfl some_text⟩
    · rw [ahead_getElem? (by omega)] at here
      rw [found.stands.before c positive here, Bool.and_false]
    · cases last
    · exact break_.take upto
    · rw [← taken, Span.slice, Span.slice, aheadOfName, List.drop_take, List.take_take, Nat.min_eq_left]
      exact Nat.sub_le_sub_right upto _
  · obtain ⟨c, here, solid, before⟩ := not_ident_before_place stands found
    refine ⟨⟨Nat.le_refl _, by simp only [Splice.insert] at upto ⊢; omega, fun d positive there => ?_,
      fun d last => ?_⟩, fun none => ?_, fun _ => ⟨rfl, tokens_insert qualifies.qualifier place,
        qualifierPlace?_level closes found⟩⟩
    · rw [ahead_getElem? (by simp only [Splice.insert] at upto positive ⊢; omega)] at there
      rw [before d positive there, Bool.and_false]
    · rw [Splice.cells, Splice.insert, List.getLast?_map, List.getLast?_concat] at last
      obtain rfl := Option.some.inj last
      rfl
    · exact absurd (List.append_eq_nil_iff.mp none).2 (List.cons_ne_nil _ _)

/-- The qualifier is not dropped: nothing that is taken out reaches over its place. -/
theorem Named.pairwise_editsAhead : (Splice.inOrder (sig.editsAhead options paren)).Pairwise
    fun a b => b.text ≠ [] → a.span.stop ≤ b.span.start := by
  refine (Splice.ordered_inOrder _).imp_of_mem fun {a b} first second order some_text => ?_
  obtain ⟨_, one⟩ := named.mem_editsAhead stands qualifies (Splice.mem_inOrder.mp first)
  obtain ⟨_, two⟩ := named.mem_editsAhead stands qualifies (Splice.mem_inOrder.mp second)
  rcases two with ⟨_, _, _, rfl⟩ | ⟨place, found, rfl⟩
  · exact absurd rfl some_text
  rcases one with ⟨marker, at_, known, rfl⟩ | ⟨place', found', rfl⟩
  · obtain ⟨c, here, solid, before⟩ := not_ident_before_place stands found
    have is_word := qualifies.markers marker known.known
    have positive := List.length_pos_iff.mpr is_word.some_byte
    rcases Nat.lt_or_ge at_ place with lt | ge
    · exact wordRemoval_stop_le_of_apart known.stands is_word lt here (code_of_not_trivia solid).2
        (.inr fun d there => before d (by omega) there)
    · simp only [wordRemoval, Splice.remove, Splice.insert] at order
      omega
  · rw [Option.some.inj (found'.symm.trans found)]
    exact Nat.le_refl _

theorem Named.countP_editsAhead : (sig.editsAhead options paren).countP (·.text ≠ []) =
    (sig.qualifierInsertion? options.qualifier).toList.length := by
  have markers : (sig.markerRemovals options.markers).countP
      (fun w => decide (w.text ≠ []) && decide (w.span.start < paren)) = 0 := by
    refine List.countP_eq_zero.mpr fun w member => ?_
    simp [(removals_markers stands qualifies.markers []).text w member]
  have consts : sig.constRemovals.countP
      (fun w => decide (w.text ≠ []) && decide (w.span.start < paren)) = 0 := by
    refine List.countP_eq_zero.mpr fun w member => ?_
    obtain ⟨_, _, _, _, _, rfl⟩ := of_mem_constRemovals member
    simp [wordRemoval, Splice.remove]
  rw [editsAhead, List.countP_filter, Definition.helperEdits, List.countP_append, List.countP_append, markers,
    consts, Nat.zero_add, List.countP_eq_length]
  intro w member
  obtain ⟨place, found, rfl⟩ := of_qualifierInsertion? (Option.mem_toList.mp member)
  have before : place < paren := Nat.lt_of_le_of_lt (qualifierPlace?_le found) named.start_lt
  simp [Splice.insert, before]

theorem Named.qualifiedFront (closes : AnglesClose 0 (tokens sig.aheadOfName)) :
    sig.QualifiedFront options (tokens (Splice.apply sig.aheadOfName (sig.editsAhead options paren))) := by
  have plain : ∀ t ∈ options.qualifier :: options.markers, isAngle t = false := by
    intro t member
    have is_word : t.IsWord := by
      rcases List.mem_cons.mp member with rfl | known
      · exact qualifies.qualifier
      · exact qualifies.markers t known
    have first := is_word.first []
    rw [List.append_nil] at first
    exact Bytes.isAngle_of_ident first
  obtain ⟨others, count⟩ := Splice.tokens_reworded
    (fun w member => named.rewords stands qualifies closes (Splice.mem_inOrder.mp member))
    (named.pairwise_editsAhead stands qualifies) (fun _ _ _ => Nat.zero_le _) plain qualifies.other
    (wordBreak_zero sig.aheadOfName)
  have sorted : (Splice.inOrder (sig.editsAhead options paren)).Perm (sig.editsAhead options paren) :=
    List.mergeSort_perm _ _
  rw [sorted.countP_eq, named.countP_editsAhead stands qualifies,
    length_qualifierInsertion qualifies.qualifier closes, List.drop_zero] at count
  have count : (outside 0 (tokens (Splice.apply sig.aheadOfName (sig.editsAhead options paren)))).count
      options.qualifier = (outside 0 (tokens sig.aheadOfName)).count options.qualifier +
        if options.qualifier ∈ outside 0 (tokens sig.aheadOfName) ∨ sig.Bare then 0 else 1 := count
  refine ⟨others, ?_, fun absent => ?_⟩
  · rw [← List.count_pos_iff, ← List.count_pos_iff, count]
    by_cases there : options.qualifier ∈ outside 0 (tokens sig.aheadOfName)
    · simp [there]
    · by_cases bare : sig.Bare <;> simp [there, bare]
  · rw [count, List.count_eq_zero.mpr absent, Nat.zero_add]
    split <;> omega

end Ahead

end Signature
end OutOfLine
