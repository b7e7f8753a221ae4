import OutOfLine.Proofs.Declaration.Head

/-! A class whose name has a single head in a text, and splices that make no other one: no two
words are put together, and nothing is cut away right behind a keyword. -/

namespace OutOfLine

theorem Span.slice_zero (stop : Nat) (items : List α) : (Span.mk 0 stop).slice items = items.take stop := rfl

theorem Span.slice_end (start : Nat) (items : List α) :
    (Span.mk start items.length).slice items = items.drop start := by
  rw [slice, List.take_of_length_le (by rw [List.length_drop]; exact Nat.le_refl _)]

namespace Cell

/-- Whether no word goes on over an offset. -/
def WordBreak (cells : List Cell) (at_ : Nat) : Prop :=
  Bytes.Apart (views (cells.take at_)) (views (cells.drop at_))

variable {cells : List Cell} {start stop : Nat}

theorem wordBreak_zero (cells : List Cell) : WordBreak cells 0 := .nil_left _

theorem wordBreak_of_before (inside : stop ≤ cells.length)
    (before : ∀ c, 0 < stop → cells[stop - 1]? = some c → (c.isCode && Byte.isIdent c.byte) = false) :
    WordBreak cells stop := by
  by_cases zero : stop = 0
  · exact zero ▸ wordBreak_zero cells
  · apply apart_of_last
    intro c last
    rw [getLast?_take inside (by omega)] at last
    exact before c (by omega) last

theorem wordBreak_of_here (here : ∀ c ∈ cells[start]?, (c.isCode && Byte.isIdent c.byte) = false) :
    WordBreak cells start := by
  apply apart_of_head
  rwa [List.head?_drop]

theorem WordBreak.apart {middle : Nat} (break_ : WordBreak cells middle) (order : start ≤ middle)
    (order' : middle ≤ stop) : Bytes.Apart (views ((Span.mk start middle).slice cells))
      (views ((Span.mk middle stop).slice cells)) := by
  have front := Span.slice_append_slice (Nat.zero_le start) order cells
  have back := Span.slice_append_drop order' cells
  rw [Span.slice_zero, Span.slice_zero] at front
  rw [WordBreak, ← front, ← back, views_append, views_append] at break_
  exact break_.part

/-- The tokens of a part of a text, cut at a break. -/
theorem tokens_slice {middle : Nat} (break_ : WordBreak cells middle) (order : start ≤ middle)
    (order' : middle ≤ stop) : tokens ((Span.mk start stop).slice cells) =
      tokens ((Span.mk start middle).slice cells) ++ tokens ((Span.mk middle stop).slice cells) := by
  rw [← Span.slice_append_slice order order', tokens_append (break_.apart order order')]

theorem tokens_take (break_ : WordBreak cells start) (order : start ≤ stop) :
    tokens (cells.take stop) = tokens (cells.take start) ++ tokens ((Span.mk start stop).slice cells) := by
  have parts := tokens_slice break_ (Nat.zero_le start) order
  rwa [Span.slice_zero, Span.slice_zero] at parts

/-- The tokens between two breaks are among those of a larger part. -/
theorem tokens_slice_within {part : Span} (first : WordBreak cells start) (last : WordBreak cells stop)
    (lower : part.start ≤ start) (order : start ≤ stop) (upper : stop ≤ part.stop) :
    tokens ((Span.mk start stop).slice cells) <:+: tokens (part.slice cells) := by
  have whole := tokens_slice first lower (Nat.le_trans order upper)
  rw [tokens_slice last order upper] at whole
  exact ⟨_, _, (List.append_assoc ..).trans whole.symm⟩

/-- A part between two breaks of a text without a head makes none, if it does not end with a keyword. -/
theorem makesNoHead_slice {keywords : List Bytes} {name : Bytes} {part : Span}
    (headless : Declaration.Headless keywords name (tokens (part.slice cells)))
    (first : WordBreak cells start) (last : WordBreak cells stop) (lower : part.start ≤ start)
    (order : start ≤ stop) (upper : stop ≤ part.stop)
    (seam : ¬Declaration.Ends keywords (tokens (cells.take stop))) :
    Declaration.MakesNoHead keywords name (tokens ((Span.mk start stop).slice cells)) where
  headless := headless.within (tokens_slice_within first last lower order upper)
  ends behind := seam (by rw [tokens_take first order]; exact behind.of_append)

/-- A text that ends with a sign ends with no keyword. -/
theorem not_ends_of_sign {keywords : List Bytes} (words : ∀ k ∈ keywords, k.IsWord) {c : Cell}
    (last : cells.getLast? = some c) (apart : Byte.isIdent c.view = false)
    (solid : Byte.isWhite c.view = false) : ¬Declaration.Ends keywords (tokens cells) := by
  obtain ⟨front, rfl⟩ := List.getLast?_eq_some_iff.mp last
  rw [tokens_append_sign apart solid]
  rintro ⟨k, known, final⟩
  rw [List.getLast?_concat] at final
  obtain rfl := Option.some.inj final
  exact Bytes.not_isWord_sign apart (words _ known)

def isSeparator (c : Cell) : Bool := c.isCodeByte Byte.comma || c.isCodeByte Byte.closeParen

theorem isSeparator_iff {c : Cell} :
    c.isSeparator = true ↔ c.isCode = true ∧ (c.byte = Byte.comma ∨ c.byte = Byte.closeParen) := by
  simp only [isSeparator, isCodeByte, Bool.or_eq_true, Bool.and_eq_true, beq_iff_eq]
  tauto

theorem not_ident_of_isSeparator {c : Cell} (separator : c.isSeparator = true) :
    (c.isCode && Byte.isIdent c.byte) = false := by
  rcases (isSeparator_iff.mp separator).2 with same | same <;> rw [same] <;> exact Bool.and_false _

end Cell

namespace Splice
open Cell Declaration

variable {keywords : List Bytes} {name : Bytes} {source : List Cell} {list : Nat}

/-- A splice that makes no head of a class where there was none. What it puts in is no head, it joins no
words, and it takes nothing away right behind a keyword, unless it puts something else there. Arguments
stand behind the offset `list` only. -/
structure AddsNoHead (keywords : List Bytes) (name : Bytes) (source : List Cell) (list : Nat) (w : Splice) :
    Prop where
  order : w.span.start ≤ w.span.stop
  inside : w.span.stop ≤ source.length
  text : MakesNoHead keywords name (tokens w.cells)
  first : WordBreak source w.span.start
  last : WordBreak source w.span.stop
  here : list < w.span.start → ∀ c ∈ source[w.span.start]?, c.isSeparator = false
  ends : ∀ c ∈ w.cells.getLast?, (c.isCode && Byte.isIdent c.byte) = false
  joins : (∀ c, 0 < w.span.start → source[w.span.start - 1]? = some c →
      (c.isCode && Byte.isIdent c.byte) = false) ∨
    (∃ c, w.cells.head? = some c ∧ (c.isCode && Byte.isIdent c.byte) = false) ∨
    w.cells = [] ∧ list < w.span.stop ∧ ∃ c, source[w.span.stop]? = some c ∧ c.isSeparator = true
  seam : ¬Ends keywords (tokens (source.take w.span.start)) ∨
    ∃ t ts, tokens w.cells = t :: ts ∧ t ≠ name

theorem head?_applyFrom {splices : List Splice} {at_ : Nat} {c : Cell} (here : source[at_]? = some c)
    (away : ∀ w ∈ splices, w.span.start ≠ at_) : (applyFrom source at_ splices).head? = some c := by
  induction splices with
  | nil => rwa [applyFrom, List.head?_drop]
  | cons w splices ih =>
    have other := away w (.head _)
    rw [applyFrom]
    split
    · exact ih fun v member => away v (.tail _ member)
    next after =>
      obtain ⟨size, positive⟩ : ∃ size, w.span.start - at_ = size + 1 := ⟨w.span.start - at_ - 1, by omega⟩
      have begins : ((Span.mk at_ w.span.start).slice source).head? = some c := by
        rw [Span.slice, Span.length, positive, List.head?_take, if_neg (Nat.succ_ne_zero size),
          List.head?_drop, here]
      rw [List.append_assoc, List.head?_append, begins]
      rfl

/-- The cells between two splices are joined with neither of them. -/
theorem AddsNoHead.apart {w : Splice} (addsNoHead : w.AddsNoHead keywords name source list) {splices : List Splice}
    (later : ∀ v ∈ splices, v.AddsNoHead keywords name source list) {at_ : Nat} (order : at_ ≤ w.span.start) :
    Bytes.Apart (views ((Span.mk at_ w.span.start).slice source))
        (views (w.cells ++ applyFrom source w.span.stop splices)) ∧
      Bytes.Apart (views w.cells) (views (applyFrom source w.span.stop splices)) := by
  have := addsNoHead.order
  have := addsNoHead.inside
  refine ⟨?_, apart_of_last addsNoHead.ends _⟩
  rcases addsNoHead.joins with before | ⟨c, begins, apart⟩ | ⟨none, inside, c, here, separator⟩
  · by_cases empty : at_ = w.span.start
    · rw [empty, Span.slice_self]
      exact .nil_left _
    · apply apart_of_last
      intro c last
      rw [Span.getLast?_slice source (by omega) (by omega)] at last
      exact before c (by omega) last
  · apply apart_of_head
    intro d first
    rw [List.head?_append, begins] at first
    exact Option.some.inj first ▸ apart
  · apply apart_of_head
    rw [none, List.nil_append, head?_applyFrom here]
    · rintro d first
      exact Option.some.inj first ▸ not_ident_of_isSeparator separator
    · intro v member same
      have other := (later v member).here (same ▸ inside) c (same ▸ here)
      rw [separator] at other
      cases other

/-- A text without a head has none after splices that make none. -/
theorem headless_applyFrom {splices : List Splice} (headless : Headless keywords name (tokens source))
    (each : ∀ w ∈ splices, w.AddsNoHead keywords name source list) {at_ : Nat} (start : WordBreak source at_) :
    Headless keywords name (tokens (applyFrom source at_ splices)) := by
  induction splices generalizing at_ with
  | nil =>
    have whole := tokens_append start
    rw [List.take_append_drop] at whole
    exact headless.within ⟨_, [], by rw [applyFrom, List.append_nil, whole]⟩
  | cons w splices ih =>
    have own := each w (.head _)
    have later := fun v (member : v ∈ splices) => each v (.tail _ member)
    rw [applyFrom]
    split
    · exact ih later start
    next after =>
      rw [Nat.not_lt] at after
      obtain ⟨front, back⟩ := own.apart later after
      rw [List.append_assoc, tokens_append front, tokens_append back]
      have inside := Nat.le_trans own.order own.inside
      have all : (Span.mk 0 source.length).slice source = source := List.take_length
      have gap := headless.within (all ▸ tokens_slice_within start own.first (Nat.zero_le _) after inside)
      have rest := ih later own.last
      apply gap.append (own.text.headless_append rest)
      rcases own.seam with ends | ⟨t, ts, begins, other⟩
      · left
        intro behind
        apply ends
        rw [tokens_take start after]
        exact behind.of_append
      · right
        rw [begins]
        exact fun same => other (Option.some.inj same)

theorem headless_apply {splices : List Splice} (headless : Headless keywords name (tokens source))
    (each : ∀ w ∈ splices, w.AddsNoHead keywords name source list) :
    Headless keywords name (tokens (apply source splices)) :=
  headless_applyFrom headless (fun w member => each w (List.mem_mergeSort.mp member)) (wordBreak_zero source)

end Splice

open Cell

variable {s : Scan}

namespace Declaration

variable {keywords : List Bytes} {name : Bytes} {d : Declaration}

theorem headAt_of_find (words : ∀ k ∈ keywords, k.IsWord) (named : name.IsWord)
    (found : find s name keywords = .ok d) : ∃ n,
      HeadAt keywords name (views (s.cells.take d.anchor)) (views (s.cells.drop d.anchor)) n ∧
      (⟨d.anchor, d.anchor + n⟩, ()) ∈ (head keywords name).matches (views s.cells) := by
  obtain ⟨_, _, ⟨m, among, anchor⟩, _⟩ := of_find found
  obtain ⟨front, rest, n, whole, here, place⟩ := headAt_of_mem_matches words named among
  have length : front.length = d.anchor := by rw [anchor, place]
  have parts := congrArg (List.splitAt front.length) whole
  rw [List.splitAt_eq, List.splitAt_eq, List.take_left, List.drop_left, length] at parts
  obtain ⟨rfl, rfl⟩ := Prod.mk.inj parts
  rw [length] at place
  refine ⟨n, ?_, place ▸ among⟩
  simpa only [views, List.map_take, List.map_drop] using here

theorem wordBreak_anchor (words : ∀ k ∈ keywords, k.IsWord) (named : name.IsWord)
    (found : find s name keywords = .ok d) : WordBreak s.cells d.anchor := by
  obtain ⟨_, here, _⟩ := headAt_of_find words named found
  exact here.apart_front words

theorem HeadAt.lt_brace (words : ∀ k ∈ keywords, k.IsWord) (named : name.IsWord) {front text : Bytes}
    {n i : Nat} (here : HeadAt keywords name front text n) (brace : text[i]? = some Byte.openBrace) :
    n ≤ i := by
  obtain ⟨k, known, white, back, rfl, _, only, _, _, rfl⟩ := here
  by_contra inside
  have whole : k ++ (white ++ (name ++ back)) = (k ++ (white ++ name)) ++ back := by simp
  rw [whole, List.getElem?_append_left (by simp only [List.length_append]; omega)] at brace
  rcases List.mem_append.mp (List.mem_of_getElem? brace) with keyword | rest
  · exact absurd ((words k known).ident _ keyword) (by decide)
  rcases List.mem_append.mp rest with blank | own
  · exact absurd (only _ blank) (by decide)
  · exact absurd (named.ident _ own) (by decide)

/-- The body of a declaration begins behind its head. -/
theorem Placed.head_le (words : ∀ k ∈ keywords, k.IsWord) (named : name.IsWord) (placed : d.Placed s)
    {n : Nat} (here : HeadAt keywords name (views (s.cells.take d.anchor)) (views (s.cells.drop d.anchor)) n) :
    d.anchor + n ≤ d.block.opening := by
  obtain ⟨c, at_opening, opens⟩ := placed.block.opening
  have after := placed.anchor
  have brace : (views (s.cells.drop d.anchor))[d.block.opening - d.anchor]? = some Byte.openBrace := by
    rw [views, List.getElem?_map, List.getElem?_drop, Nat.add_sub_cancel' after, at_opening]
    exact congrArg some (view_of_isCodeByte (by decide) opens)
  have := here.lt_brace words named brace
  omega

/-- No word goes on over the ends of a declaration and of its body. -/
theorem Placed.breaks (placed : d.Placed s) (read : Reads [] s.cells []) :
    WordBreak s.cells (d.block.opening + 1) ∧ WordBreak s.cells d.block.closing ∧
      WordBreak s.cells d.stop := by
  obtain ⟨opening, at_opening, opens⟩ := placed.block.opening
  obtain ⟨closing, at_closing, closes⟩ := placed.block.closing
  obtain ⟨last, at_last, ends⟩ := placed.last read
  have lt := placed.block.lt
  have upto := placed.block.closing_lt_length
  have bounds := placed.bounds
  have sign {b : Byte} {c : Cell} (is_byte : c.isCodeByte b = true) (apart : Byte.isIdent b = false) :
      (c.isCode && Byte.isIdent c.byte) = false := by
    rw [(of_isCodeByte is_byte).1, apart, Bool.and_false]
  refine ⟨?_, ?_, ?_⟩
  · apply wordBreak_of_before (List.getElem?_eq_some_iff.mp at_opening).1
    intro c _ before
    rw [Nat.succ_sub_one, at_opening] at before
    exact Option.some.inj before ▸ sign opens rfl
  · apply wordBreak_of_here
    intro c here
    exact Option.some.inj (at_closing.symm.trans here) ▸ sign closes rfl
  · apply wordBreak_of_before bounds.2
    intro c _ before
    rw [at_last] at before
    rw [← Option.some.inj before]
    exact ends.elim (sign · rfl) (sign · rfl)

theorem Placed.body_within (placed : d.Placed s) (read : Reads [] s.cells []) {part : Span}
    (lower : part.start ≤ d.block.opening) (upper : d.stop ≤ part.stop) :
    tokens (d.block.body.slice s.cells) <:+: tokens (part.slice s.cells) := by
  obtain ⟨opening, closing, _⟩ := placed.breaks read
  have lt := placed.block.lt
  have past := lt_stopAfter s.bytes d.block.closing
  rw [← placed.stop] at past
  exact tokens_slice_within opening closing (by omega) lt (by omega)

/-- Whether a text has the head of a class of a name exactly once. -/
def Once (s : Scan) (keywords : List Bytes) (name : Bytes) : Prop :=
  ((head keywords name).matches (s.view ⟨0, s.length⟩)).length = 1

instance (s : Scan) (keywords : List Bytes) (name : Bytes) : Decidable (Once s keywords name) :=
  inferInstanceAs (Decidable (_ = 1))

/-- The only head of a class is that of the declaration which is found; there is none in front of it and
none behind it. -/
theorem head_of_once (words : ∀ k ∈ keywords, k.IsWord) (named : name.IsWord)
    (found : find s name keywords = .ok d) (once : Once s keywords name) : ∃ n,
      HeadAt keywords name (views (s.cells.take d.anchor)) (views (s.cells.drop d.anchor)) n ∧
      (head keywords name).matches (views s.cells) = [(⟨d.anchor, d.anchor + n⟩, ())] ∧
      Headless keywords name (tokens (s.cells.take d.anchor)) ∧
      Headless keywords name (tokens (s.cells.drop (d.anchor + n))) := by
  obtain ⟨n, here, member⟩ := headAt_of_find words named found
  rw [Once, s.view_all] at once
  obtain ⟨m, single⟩ := List.length_eq_one_iff.mp once
  rw [single, List.mem_singleton] at member
  subst member
  obtain ⟨lower, upper⟩ := (placed_of_find found).2.bounds
  have front : (views (s.cells.take d.anchor)).length = d.anchor := by
    rw [length_views, List.length_take]
    rw [Scan.length] at upper
    omega
  have whole : views (s.cells.take d.anchor) ++ views (s.cells.drop d.anchor) = views s.cells := by
    rw [← views_append, List.take_append_drop]
  have rest : (views (s.cells.drop d.anchor)).drop n = views (s.cells.drop (d.anchor + n)) := by
    rw [views, views, ← List.map_drop, List.drop_drop]
  obtain ⟨before, behind⟩ := headless_around words named (by rw [whole, front]; exact single) here
  rw [rest] at behind
  exact ⟨n, here, single, before, behind⟩

/-- Around the only head of a class there is none: not in front of it, not in the body, and not behind. -/
theorem headless_of_find (words : ∀ k ∈ keywords, k.IsWord) (named : name.IsWord)
    (read : Reads [] s.cells []) (found : find s name keywords = .ok d) (once : Once s keywords name) :
    Headless keywords name (tokens (s.cells.take d.anchor)) ∧
      Headless keywords name (tokens (d.block.body.slice s.cells)) ∧
      Headless keywords name (tokens (s.cells.drop d.stop)) := by
  obtain ⟨n, here, _, before, behind⟩ := head_of_once words named found once
  have placed := (placed_of_find found).2
  obtain ⟨_, upper⟩ := placed.bounds
  have after := placed.head_le words named here
  have lt := placed.block.lt
  have past := lt_stopAfter s.bytes d.block.closing
  rw [← placed.stop] at past
  rw [← Span.slice_end] at behind ⊢
  refine ⟨before, behind.within (placed.body_within read after upper), behind.within ?_⟩
  exact tokens_slice_within (placed.breaks read).2.2 (wordBreak_of_here (by simp)) (by dsimp only; omega)
    upper (Nat.le_refl _)

end Declaration

end OutOfLine
