import OutOfLine.Proofs.Scan.Reading
import OutOfLine.Proofs.Section
import OutOfLine.Proofs.Text.Word
import OutOfLine.Signature

/-! The tokens of code, pieces of text that are read in the same way wherever they stand, and
edits that keep a text readable: every byte that is kept stays what it was. -/

namespace OutOfLine

namespace Cell
open Bytes (Apart)

def tokens (cells : List Cell) : List Bytes := Bytes.tokens (views cells)

theorem views_append (first second : List Cell) : views (first ++ second) = views first ++ views second :=
  List.map_append

theorem length_views (cells : List Cell) : (views cells).length = cells.length := List.length_map view

theorem view_of_isCodeByte {b : Byte} {c : Cell} (ascii : Byte.isAscii b = true)
    (is_byte : c.isCodeByte b = true) : c.view = b := by
  obtain ⟨rfl, code⟩ := of_isCodeByte is_byte
  rw [view, ascii, code, Bool.or_true, Bool.and_true, if_pos rfl]

theorem isIdent_view (c : Cell) : Byte.isIdent c.view = (c.isCode && Byte.isIdent c.byte) := by
  cases word : c.isCode && Byte.isIdent c.byte with
  | true =>
    rw [Bool.and_eq_true] at word
    rw [view_of_ident word.1 word.2, word.2]
  | false =>
    cases ident : Byte.isIdent c.view with
    | false => rfl
    | true =>
      obtain ⟨same, code⟩ := of_view_ident ident
      rw [← same, ident, code] at word
      cases word

theorem apart_of_last {first : List Cell}
    (ends : ∀ c ∈ first.getLast?, (c.isCode && Byte.isIdent c.byte) = false) (text : Bytes) :
    Apart (views first) text := by
  intro last
  rw [views, List.getLast?_map] at last
  cases found : first.getLast? with
  | none => rw [found] at last; cases last
  | some c =>
    rw [found, Option.map_some, Option.any_some, isIdent_view, ends c found] at last
    cases last

theorem apart_of_head {second : List Cell}
    (begins : ∀ c ∈ second.head?, (c.isCode && Byte.isIdent c.byte) = false) (text : Bytes) :
    Apart text (views second) := by
  intro _
  rw [views, List.head?_map]
  cases found : second.head? with
  | none => rfl
  | some c => rw [Option.map_some, Option.any_some, isIdent_view, begins c found]

theorem apart_of_runOver {run : Bytes} {first : List Cell} (none : runOver run first = []) (text : Bytes) :
    Apart (views first) text := by
  apply apart_of_last
  intro c last
  obtain ⟨front, rfl⟩ := List.getLast?_eq_some_iff.mp last
  rw [runOver_append, runOver_cons, runOver_nil, runAfter] at none
  split at none
  · cases none
  next apart => exact Bool.eq_false_iff.mpr apart

theorem white_of_byte {c : Cell} (white : Byte.isWhite c.byte = true) : Byte.isWhite c.view = true := by
  unfold view
  split
  · exact white
  · rfl

theorem white_of_not_ascii {c : Cell} (high : Byte.isAscii c.byte = false) :
    Byte.isWhite c.view = true := by
  rw [view, high, Bool.false_and, if_neg Bool.false_ne_true]
  rfl

theorem white_of_not_code {c : Cell} (code : c.isCode = false) : Byte.isWhite c.view = true := by
  by_cases newline : c.byte = Byte.newline
  · apply white_of_byte
    rw [newline]
    rfl
  · rw [view, code, beq_false_of_ne newline, Bool.or_false, Bool.and_false, if_neg Bool.false_ne_true]
    rfl

theorem tokens_append {first second : List Cell} (apart : Apart (views first) (views second)) :
    tokens (first ++ second) = tokens first ++ tokens second := by
  rw [tokens, views_append, Bytes.tokens_append apart]
  rfl

theorem tokens_white_append {white : List Cell} (only : ∀ c ∈ white, Byte.isWhite c.view = true)
    (cells : List Cell) : tokens (white ++ cells) = tokens cells := by
  have blank : ∀ b ∈ views white, Byte.isWhite b = true := List.forall_mem_map.mpr only
  rw [tokens, views_append, Bytes.tokens_white blank]
  rfl

/-- A sign is a token of its own. -/
theorem tokens_sign {c : Cell} (apart : Byte.isIdent c.view = false) (solid : Byte.isWhite c.view = false)
    (cells : List Cell) : tokens (c :: cells) = [c.view] :: tokens cells := by
  change Bytes.tokens (c.view :: views cells) = _
  rw [Bytes.tokens, apart, if_neg Bool.false_ne_true, solid, if_neg Bool.false_ne_true]
  rfl

theorem tokens_append_sign {c : Cell} (apart : Byte.isIdent c.view = false)
    (solid : Byte.isWhite c.view = false) (cells : List Cell) :
    tokens (cells ++ [c]) = tokens cells ++ [[c.view]] := by
  rw [tokens_append, tokens_sign apart solid]
  · rfl
  · apply apart_of_head
    rintro d first
    obtain rfl := Option.some.inj first
    rw [← isIdent_view, apart]

theorem views_code {text : Bytes} (ascii : ∀ b ∈ text, Byte.isAscii b = true) :
    views (text.map (⟨·, .code⟩)) = text := by
  rw [views, List.map_map]
  refine (List.map_congr_left fun b member => ?_).trans (List.map_id text)
  simp [view, ascii b member, isCode]

theorem tokens_cons {c : Cell} {first second : List Cell} (same : tokens first = tokens second)
    (goes_on : Byte.isIdent c.view = true →
      (views first).head?.any Byte.isIdent = (views second).head?.any Byte.isIdent) :
    tokens (c :: first) = tokens (c :: second) := by
  change Bytes.tokens (c.view :: views first) = Bytes.tokens (c.view :: views second)
  have same : Bytes.tokens (views first) = Bytes.tokens (views second) := same
  rw [Bytes.tokens, Bytes.tokens, same]
  cases ident : Byte.isIdent c.view with
  | false => rfl
  | true => rw [goes_on ident]

theorem tokens_white {white : List Cell} (only : ∀ c ∈ white, Byte.isWhite c.view = true) :
    tokens white = [] := by
  have whole := tokens_white_append only []
  rwa [List.append_nil] at whole

theorem tokens_append_white {white : List Cell} (only : ∀ c ∈ white, Byte.isWhite c.view = true)
    (cells : List Cell) : tokens (cells ++ white) = tokens cells := by
  rw [tokens_append, tokens_white only, List.append_nil]
  apply apart_of_head
  intro c first
  rw [← isIdent_view]
  cases ident : Byte.isIdent c.view with
  | false => rfl
  | true =>
    have own := only c (List.mem_of_head? first)
    rw [Bytes.not_white_of_ident ident] at own
    cases own

/-- Text without quotes, in which no comment begins, is read as code wherever it stands. -/
theorem reads_code {text : Bytes} (unquoted : ∀ b ∈ text, b ≠ Byte.doubleQuote ∧ b ≠ Byte.singleQuote)
    (noLine : ¬[Byte.slash, Byte.slash] <:+: text) (noBlock : ¬[Byte.slash, Byte.star] <:+: text)
    (last : text.getLast? ≠ some Byte.slash) (run tail : Bytes) : Reads run (uniform .code text) tail := by
  induction text generalizing run with
  | nil => exact .nil
  | cons b text ih =>
    have within : text <:+: b :: text := (List.suffix_cons b text).isInfix
    obtain ⟨noString, noChar⟩ := unquoted b (.head _)
    have slash (same : b = Byte.slash) :
        (text ++ tail).head? ≠ some Byte.slash ∧ (text ++ tail).head? ≠ some Byte.star := by
      subst same
      cases text with
      | nil => exact absurd rfl last
      | cons c text =>
        refine ⟨fun same => noLine ?_, fun same => noBlock ?_⟩ <;>
          obtain rfl : c = _ := Option.some.inj same <;>
          exact (List.prefix_append _ text).isInfix
    have one : Lexeme.extent run b ([] ++ (bytes (uniform .code text) ++ tail)) = .ok (.code, 0) :=
      Lexeme.extent_code_iff.mpr ⟨rfl, by rwa [bytes_uniform], noString, fun same => absurd same noChar⟩
    refine .lexeme one (ih (fun c member => unquoted c (.tail _ member)) (fun line => noLine (line.trans within))
      (fun block => noBlock (block.trans within)) ?_ _)
    cases text with
    | nil => simp
    | cons c text => rwa [List.getLast?_cons_cons] at last

/-- Bytes that belong to no delimiter are read as code wherever they stand. -/
theorem reads_inert {text : Bytes} (inert : ∀ b ∈ text, b ∉ delimiters) (run tail : Bytes) :
    Reads run (uniform .code text) tail := by
  have noSlash : Byte.slash ∉ text := fun member => inert _ member (by decide)
  refine reads_code (fun b member => ?_) (fun line => noSlash (line.subset (.head _)))
    (fun block => noSlash (block.subset (.head _))) (fun last => noSlash (List.mem_of_getLast? last)) run tail
  have apart := inert b member
  simp only [delimiters, List.mem_cons, List.not_mem_nil, or_false, not_or] at apart
  exact apart.2.2

/-- Whether what the cell is part of ends with it, whatever follows. -/
def Seals (c : Cell) : Prop :=
  c.cls ≠ .lineComment ∧ (c.isCode = true → c.byte ≠ Byte.slash ∧ Byte.isIdent c.byte = false)

theorem Seals.admits {c : Cell} (seals : c.Seals) (text : Bytes) : c.Admits text := by
  refine ⟨seals.1, fun slash => ?_⟩
  simp only [isCodeByte, Bool.and_eq_true, beq_iff_eq] at slash
  exact absurd slash.1 (seals.2 slash.2).1

theorem Seals.apart {c : Cell} (seals : c.Seals) : (c.isCode && Byte.isIdent c.byte) = false := by
  cases code : c.isCode with
  | false => rfl
  | true => exact (seals.2 code).2

/-- Cells that are read in the same way wherever they stand behind a token, and end a token. -/
structure Standalone (cells : List Cell) : Prop where
  reads : ∀ tail, Reads [] cells tail
  run : runOver [] cells = []

theorem Standalone.nil : Standalone [] := ⟨fun _ => .nil, rfl⟩

theorem Standalone.append {first second : List Cell} (one : Standalone first)
    (two : Standalone second) : Standalone (first ++ second) where
  reads tail := (one.reads _).append (one.run.symm ▸ two.reads tail)
  run := by rw [runOver_append, one.run, two.run]

theorem Reads.standalone {tail : Bytes} {cells : List Cell} (read : Reads [] cells tail)
    (seals : ∀ c ∈ cells.getLast?, c.Seals) : Standalone cells where
  reads _ := read.retail fun c last => (seals c last).admits _
  run := runOver_of_apart fun c last => (seals c last).apart

theorem Standalone.apart {cells : List Cell} (standalone : Standalone cells) (text : Bytes) :
    Bytes.Apart (views cells) text := apart_of_runOver standalone.run text

/-- A text that is read in the same way wherever it stands, in which the depth changes by `change` and
whose tokens are `ws`. -/
def Piece (text : Bytes) (change : Int) (ws : List Bytes) : Prop :=
  ∃ cells, bytes cells = text ∧ Standalone cells ∧ net cells = change ∧ tokens cells = ws

theorem Piece.nil : Piece [] 0 [] := ⟨[], rfl, .nil, rfl, rfl⟩

theorem Piece.append {first second : Bytes} {m n : Int} {ws vs : List Bytes} (one : Piece first m ws)
    (two : Piece second n vs) : Piece (first ++ second) (m + n) (ws ++ vs) := by
  obtain ⟨front, rfl, stands, rfl, rfl⟩ := one
  obtain ⟨back, rfl, stands', rfl, rfl⟩ := two
  exact ⟨front ++ back, by simp, stands.append stands', by simp, tokens_append (stands.apart _)⟩

theorem Piece.flatMap {items : List α} {text : α → Bytes} {change : α → Int} {ws : α → List Bytes}
    (each : ∀ x ∈ items, Piece (text x) (change x) (ws x)) :
    Piece (items.flatMap text) (items.map change).sum (items.flatMap ws) := by
  induction items with
  | nil => exact .nil
  | cons x items ih =>
    rw [List.flatMap_cons, List.flatMap_cons, List.map_cons, List.sum_cons]
    exact (each x (.head _)).append (ih fun y member => each y (.tail _ member))

end Cell

theorem Span.slice_append_drop {start stop : Nat} (order : start ≤ stop) (items : List α) :
    (Span.mk start stop).slice items ++ items.drop stop = items.drop start := by
  have rest : items.drop stop = (items.drop start).drop (stop - start) := by
    rw [List.drop_drop]
    congr 1
    omega
  rw [slice, length, rest, List.take_append_drop]

theorem Span.slice_append_slice {start middle stop : Nat} (first : start ≤ middle)
    (second : middle ≤ stop) (items : List α) :
    (Span.mk start middle).slice items ++ (Span.mk middle stop).slice items =
      (Span.mk start stop).slice items := by
  have size : stop - start = (middle - start) + (stop - middle) := by omega
  have place : start + (middle - start) = middle := by omega
  simp only [slice, Span.length]
  rw [size, List.take_add, List.drop_drop, place]

theorem Span.take_append_slice {start stop : Nat} (order : start ≤ stop) (items : List α) :
    items.take start ++ (Span.mk start stop).slice items = items.take stop :=
  slice_append_slice (Nat.zero_le start) order items

theorem Span.getLast?_slice {start stop : Nat} (items : List α) (lt : start < stop)
    (inside : stop ≤ items.length) :
    ((Span.mk start stop).slice items).getLast? = items[stop - 1]? := by
  have last : start + (stop - start - 1) = stop - 1 := by omega
  have whole : ((items.drop start).take (stop - start)).length = stop - start := by
    rw [List.length_take, List.length_drop]
    omega
  simp only [slice, Span.length]
  rw [List.getLast?_eq_getElem?, whole, List.getElem?_take_of_lt (by omega), List.getElem?_drop, last]

theorem Span.slice_self (start : Nat) (items : List α) : (Span.mk start start).slice items = [] := by
  simp [slice, length]

namespace Splice
open Cell

variable {source : List Cell} {tail : Bytes}

/-- A splice that a text goes on behind as it did before. -/
structure Fits (source : List Cell) (tail : Bytes) (w : Splice) : Prop where
  order : w.span.start ≤ w.span.stop
  inside : w.span.stop ≤ source.length
  cut : ∀ c, source[w.span.start]? = some c → c.isCode = true
  inert : ∀ b ∈ w.text, b ∉ delimiters
  seam : ∀ c, 0 < w.span.start → source[w.span.start - 1]? = some c →
    c.cls ≠ .lineComment ∧ (w.text = [] → c.isCodeByte Byte.slash = false)
  resume : Reads [] (source.drop w.span.stop) tail
  /-- What stands in front of the rest ends no word, or the rest begins with neither a word nor a
  quote. -/
  quiet : (∃ b, w.text.getLast? = some b ∧ Byte.isIdent b = false) ∨
    w.text = [] ∧ (∃ c, source[w.span.start]? = some c ∧ Byte.isIdent c.byte = true) ∧
      (∀ c, 0 < w.span.start → source[w.span.start - 1]? = some c →
        (c.isCode && Byte.isIdent c.byte) = false) ∨
    w.text = [] ∧ ∀ c ∈ (source.drop w.span.stop).head?, Byte.isIdent c.byte = false ∧
      c.byte ≠ Byte.doubleQuote ∧ c.byte ≠ Byte.singleQuote

/-- Whether what a splice takes out stands behind neither a line comment nor a slash. -/
def Clean (source : List Cell) (w : Splice) : Prop :=
  w.text = [] → ∀ c ∈ source[w.span.start - 1]?, 0 < w.span.start →
    c.cls ≠ .lineComment ∧ c.isCodeByte Byte.slash = false

instance (source : List Cell) (w : Splice) : Decidable (w.Clean source) :=
  inferInstanceAs (Decidable (w.text = [] → ∀ c ∈ source[w.span.start - 1]?, 0 < w.span.start →
    c.cls ≠ .lineComment ∧ c.isCodeByte Byte.slash = false))

theorem cells_eq (w : Splice) : w.cells = uniform .code w.text := rfl

/-- What a splice of its own leaves behind: the rest of the text is read as before. -/
theorem Fits.behind {w : Splice} (fits : w.Fits source tail) {run : Bytes} {at_ : Nat}
    (before : at_ ≤ w.span.start)
    (quiet : run = [] ∨ ∀ c ∈ (source.drop at_).head?, Byte.isIdent c.byte = false) :
    let run' := runOver (runOver run ((Span.mk at_ w.span.start).slice source)) w.cells
    Reads run' (source.drop w.span.stop) tail ∧
      (run' = [] ∨ ∀ c ∈ (source.drop w.span.stop).head?, Byte.isIdent c.byte = false) := by
  intro run'
  have order := fits.order
  have inside := fits.inside
  rcases fits.quiet with ⟨b, last, apart⟩ | ⟨none, ⟨d, first, ident⟩, apart⟩ | ⟨none, solid⟩
  · have empty : run' = [] := by
      apply runOver_of_last (c := ⟨b, .code⟩)
      · rw [cells_eq, uniform, List.getLast?_map, last]
        rfl
      · simp [apart]
    exact ⟨empty ▸ fits.resume, .inl empty⟩
  · have same : run' = runOver run ((Span.mk at_ w.span.start).slice source) := by
      simp [run', cells_eq, none]
    have empty : run' = [] := by
      rw [same]
      by_cases here : at_ = w.span.start
      · subst here
        rw [Span.slice_self]
        rcases quiet with empty | other
        · exact empty
        · have := other d (by rw [List.head?_drop, first]; rfl)
          rw [ident] at this
          cases this
      · have last := Span.getLast?_slice source (by omega : at_ < w.span.start) (by omega)
        cases found : source[w.span.start - 1]? with
        | none =>
          have := List.getElem?_eq_none_iff.mp found
          omega
        | some c => exact runOver_of_last (last.trans found) (apart c (by omega) found) run
    exact ⟨empty ▸ fits.resume, .inl empty⟩
  · exact ⟨fits.resume.rerun_solid solid _, .inr fun c first => (solid c first).1⟩

/-- A text with fitting splices made is read as the text was. -/
theorem reads_applyFrom {splices : List Splice} (fits : ∀ w ∈ splices, w.Fits source tail)
    {run : Bytes} {at_ : Nat} (read : Reads run (source.drop at_) tail)
    (quiet : run = [] ∨ ∀ c ∈ (source.drop at_).head?, Byte.isIdent c.byte = false) :
    Reads run (applyFrom source at_ splices) tail := by
  induction splices generalizing run at_ with
  | nil => exact read
  | cons w splices ih =>
    have own := fits w (.head _)
    have later := fun v member => fits v (.tail _ member)
    rw [applyFrom]
    split
    · exact ih later read quiet
    next before =>
      rw [Nat.not_lt] at before
      have order := own.order
      have inside := own.inside
      rw [← Span.slice_append_drop before] at read
      obtain ⟨kept, _⟩ := read.split_before (by rw [List.head?_drop]; exact own.cut)
      obtain ⟨behind, goes_on⟩ := own.behind before quiet
      have rest := ih later behind goes_on
      rw [List.append_assoc]
      apply Reads.append
      · apply kept.retail
        intro c last
        by_cases here : at_ = w.span.start
        · rw [here, Span.slice_self] at last
          cases last
        rw [Span.getLast?_slice _ (by omega) (by omega)] at last
        obtain ⟨noLine, slash⟩ := own.seam c (by omega) last
        refine ⟨noLine, fun is_slash => ?_⟩
        cases text : w.text with
        | nil =>
          rw [slash text] at is_slash
          cases is_slash
        | cons b text =>
          have apart := own.inert b (by rw [text]; exact .head _)
          simp only [delimiters, List.mem_cons, not_or] at apart
          simp [cells_eq, text, apart]
      · exact (reads_inert own.inert _ _).append rest

theorem reads_apply {splices : List Splice} (fits : ∀ w ∈ splices, w.Fits source tail)
    (read : Reads [] source tail) : Reads [] (apply source splices) tail :=
  reads_applyFrom (fun w member => fits w (List.mem_mergeSort.mp member)) read (.inl rfl)

theorem applyFrom_append {splices : List Splice} (inside : ∀ w ∈ splices, w.span.stop ≤ source.length)
    {at_ : Nat} (upto : at_ ≤ source.length) (more : List Cell)
    (order : ∀ w ∈ splices, w.span.start ≤ w.span.stop) :
    applyFrom (source ++ more) at_ splices = applyFrom source at_ splices ++ more := by
  induction splices generalizing at_ with
  | nil => exact List.drop_append_of_le_length upto
  | cons w splices ih =>
    have later {at_ : Nat} (upto : at_ ≤ source.length) :=
      ih (fun v member => inside v (.tail _ member)) upto fun v member => order v (.tail _ member)
    have stop := inside w (.head _)
    have start := order w (.head _)
    rw [applyFrom, applyFrom]
    split
    · exact later upto
    · rw [later stop, List.append_assoc, List.append_assoc, List.append_assoc, Span.slice, Span.slice,
        List.drop_append_of_le_length upto, List.take_append_of_le_length]
      rw [List.length_drop, Span.length]
      dsimp only
      omega

/-- The last byte of a text stays if no splice reaches over it. -/
theorem getLast?_applyFrom {splices : List Splice} (inside : ∀ w ∈ splices, w.span.stop < source.length)
    {at_ : Nat} (upto : at_ < source.length) :
    (applyFrom source at_ splices).getLast? = source.getLast? := by
  induction splices generalizing at_ with
  | nil => rw [applyFrom, List.getLast?_drop, if_neg (by omega)]
  | cons w splices ih =>
    have later {at_ : Nat} (upto : at_ < source.length) :=
      ih (fun v member => inside v (.tail _ member)) upto
    have stop := inside w (.head _)
    rw [applyFrom]
    split
    · exact later upto
    · have some_cells : applyFrom source w.span.stop splices ≠ [] := by
        intro none
        have same := later stop
        rw [none, List.getLast?_nil, eq_comm, List.getLast?_eq_none_iff] at same
        simp [same] at upto
      rw [List.getLast?_append_of_ne_nil _ some_cells, later stop]

/-- Splices that leave the braces as they are. -/
theorem net_applyFrom {splices : List Splice}
    (each : ∀ w ∈ splices, w.span.start ≤ w.span.stop ∧ net w.cells = net (w.span.slice source))
    (at_ : Nat) : net (applyFrom source at_ splices) = net (source.drop at_) := by
  induction splices generalizing at_ with
  | nil => rfl
  | cons w splices ih =>
    have later := ih fun v member => each v (.tail _ member)
    obtain ⟨order, same⟩ := each w (.head _)
    rw [applyFrom]
    split
    · exact later at_
    next before =>
      rw [Nat.not_lt] at before
      rw [net_append, net_append, later, same, ← Span.slice_append_drop before,
        ← Span.slice_append_drop order, net_append, net_append, Int.add_assoc]

end Splice

end OutOfLine
