import OutOfLine.Proofs.Member.Walk
import OutOfLine.Proofs.Scan.Nesting
import OutOfLine.Proofs.Splice

/-! Parts of a scanned text that are read on their own as they are read in it, and a text with
another one put into it that holds no brace. Offsets and depths differ by those of the place. -/

namespace OutOfLine

namespace Cell

theorem eq_of_isCodeByte {b : Byte} {c : Cell} (is_byte : c.isCodeByte b = true) : c = ⟨b, .code⟩ := by
  obtain ⟨byte, code⟩ := of_isCodeByte is_byte
  rw [isCode, beq_iff_eq] at code
  rw [← byte, ← code]

theorem seals_of_isCodeByte {b : Byte} {c : Cell} (is_byte : c.isCodeByte b = true)
    (noSlash : b ≠ Byte.slash) (apart : Byte.isIdent b = false) : c.Seals := by
  obtain ⟨rfl, code⟩ := of_isCodeByte is_byte
  refine ⟨fun line => ?_, fun _ => ⟨noSlash, apart⟩⟩
  simp [isCode, line] at code

end Cell

namespace Scan
open Cell

variable {s : Scan}

theorem bytes_slice (s : Scan) (span : Span) : Cell.bytes (span.slice s.cells) = span.slice s.bytes := by
  simp only [Scan.bytes, Cell.bytes, Span.slice, List.map_take, List.map_drop]

theorem bytes_drop (s : Scan) (offset : Nat) : Cell.bytes (s.cells.drop offset) = s.bytes.drop offset := by
  simp only [Scan.bytes, Cell.bytes, List.map_drop]

theorem bytes_take (s : Scan) (offset : Nat) : Cell.bytes (s.cells.take offset) = s.bytes.take offset := by
  simp only [Scan.bytes, Cell.bytes, List.map_take]

/-- Whether the text goes on at an offset behind a byte of code that belongs to no word. -/
def Behind (s : Scan) (offset : Nat) : Prop :=
  ∃ c, 0 < offset ∧ s.cells[offset - 1]? = some c ∧ c.isCode = true ∧ Byte.isIdent c.byte = false

theorem Behind.reads {start : Nat} (behind : s.Behind start) (read : Reads [] s.cells []) :
    Reads [] (s.cells.drop start) [] := by
  obtain ⟨c, positive, before, code, apart⟩ := behind
  have bound := (List.getElem?_eq_some_iff.mp before).1
  have last := (getLast?_take (by omega) positive).trans before
  rw [← List.take_append_drop start s.cells] at read
  have after := (read.split_behind fun d found => by
    rw [last] at found
    exact Option.some.inj found ▸ code).2
  rwa [runOver_of_last last (by rw [apart, Bool.and_false])] at after

/-- What stands in front of a clear offset is sealed, but for a line comment. -/
theorem Clear.seals {offset : Nat} (clear : s.Clear offset) {c : Cell}
    (before : s.cells[offset - 1]? = some c) (noLine : c.cls ≠ .lineComment) : c.Seals := by
  obtain ⟨d, found, ends⟩ := clear
  obtain rfl := Option.some.inj (before.symm.trans found)
  refine ⟨noLine, fun code => ?_⟩
  rcases ends with trivia | separator
  · have blank : Byte.isBlank c.byte = true := by simpa [isTrivia, code] using trivia
    refine ⟨fun slash => ?_, not_ident_of_blank blank⟩
    rw [slash] at blank
    cases blank
  · simp only [List.mem_cons, List.not_mem_nil, or_false] at separator
    rcases separator with same | same | same | same <;> rw [same] <;> exact ⟨by decide, rfl⟩

theorem Clear.apart {offset : Nat} (clear : s.Clear offset) {c : Cell}
    (before : s.cells[offset - 1]? = some c) : (c.isCode && Byte.isIdent c.byte) = false := by
  cases code : c.isCode with
  | false => rfl
  | true =>
    have noLine : c.cls ≠ .lineComment := by
      intro line
      simp [Cell.isCode, line] at code
    exact ((clear.seals before noLine).2 code).2

/-- A text is read up to a byte of code as it is read before it. -/
theorem reads_slice {start stop : Nat} (order : start ≤ stop) (read : Reads [] (s.cells.drop start) [])
    (code : ∀ c, s.cells[stop]? = some c → c.isCode = true) :
    Reads [] ((Span.mk start stop).slice s.cells) (Cell.bytes (s.cells.drop stop)) := by
  rw [← Span.slice_append_drop order] at read
  have front := (read.split_before (by rw [List.head?_drop]; exact code)).1
  rwa [List.append_nil] at front

end Scan

/-- A block is read on its own, and leaves the depth as it was. -/
theorem Block.Located.standalone {s : Scan} {b : Block} (valid : b.Located s)
    (read : Cell.Reads [] s.cells []) : Cell.Standalone (b.span.slice s.cells) ∧
      Cell.net (b.span.slice s.cells) = 0 ∧
      ∃ c, (b.span.slice s.cells).getLast? = some c ∧ c.isCodeByte Byte.closeBrace = true := by
  obtain ⟨opening, at_opening, opens⟩ := valid.opening
  obtain ⟨closing, at_closing, closes⟩ := valid.closing
  have lt := valid.lt
  have bound := valid.closing_lt_length
  have last : (b.span.slice s.cells).getLast? = some closing := by
    rw [← at_closing]
    exact Span.getLast?_slice s.cells (by omega : b.opening < b.closing + 1) bound
  refine ⟨?_, ?_, closing, last, closes⟩
  · have start := (read.from_code fun c found =>
      Option.some.inj (at_opening.symm.trans found) ▸ (Cell.of_isCodeByte opens).2).rerun_solid (by
        rw [List.head?_drop, at_opening]
        rintro c found
        obtain rfl := Option.some.inj found
        rw [(Cell.of_isCodeByte opens).1]
        decide) []
    rw [← Span.slice_append_drop (by omega : b.opening ≤ b.closing + 1)] at start
    have block := (start.split_behind fun c found => by
      have same : (b.span.slice s.cells).getLast? = some c := found
      rw [last] at same
      exact Option.some.inj same ▸ (Cell.of_isCodeByte closes).2).1
    apply block.standalone
    intro c found
    have same : (b.span.slice s.cells).getLast? = some c := found
    rw [last] at same
    exact Option.some.inj same ▸ Cell.seals_of_isCodeByte closes (by decide) rfl
  · have change := s.net_slice (by omega : b.opening ≤ b.closing + 1)
    rw [valid.depth, valid.back] at change
    exact change.trans (Int.sub_self _)

theorem Span.shift_shift (span : Span) (first second : Nat) :
    (span.shift first).shift second = span.shift (first + second) := by
  simp [shift, Nat.add_assoc]

theorem Span.length_shift (span : Span) (distance : Nat) : (span.shift distance).length = span.length := by
  simp only [length, shift]
  omega

theorem Span.precedes_shift (a b : Span) (distance : Nat) :
    (a.shift distance).precedes (b.shift distance) = a.precedes b := by
  have same (i j : Nat) : (i + distance == j + distance) = (i == j) := by
    rw [Bool.eq_iff_iff]
    simp
  simp [precedes, shift, same]

def Block.shift (b : Block) (distance : Nat) (rise : Int) : Block :=
  ⟨b.opening + distance, b.closing + distance, b.depth + rise⟩

theorem Block.span_shift (b : Block) (distance : Nat) (rise : Int) :
    (b.shift distance rise).span = b.span.shift distance := by
  simp only [span, shift, Span.shift, Nat.add_right_comm]

theorem Block.body_shift (b : Block) (distance : Nat) (rise : Int) :
    (b.shift distance rise).body = b.body.shift distance := by
  simp only [body, shift, Span.shift, Nat.add_right_comm]

theorem Block.shift_zero (b : Block) : b.shift 0 0 = b := by simp [shift]

theorem Block.Located.moved {s m : Scan} {b : Block} {base : Nat} {rise : Int} (valid : b.Located m)
    (cells : ∀ i, b.opening ≤ i → i ≤ b.closing → s.cells[i + base]? = m.cells[i]?)
    (depths : ∀ i, b.opening ≤ i → i ≤ b.closing + 1 → s.depthAt (i + base) = m.depthAt i + rise) :
    (b.shift base rise).Located s := by
  have lt := valid.lt
  refine ⟨?_, ?_, Nat.add_lt_add_right lt base, ?_, ?_, ?_⟩
  · rw [Block.shift, cells _ (Nat.le_refl _) (Nat.le_of_lt lt)]
    exact valid.opening
  · rw [Block.shift, cells _ (Nat.le_of_lt lt) (Nat.le_refl _)]
    exact valid.closing
  · rw [Block.shift, depths _ (Nat.le_refl _) (by omega), valid.depth]
  · intro offset after upto
    simp only [Block.shift] at after upto ⊢
    obtain ⟨i, rfl⟩ : ∃ i, offset = i + base := ⟨offset - base, by omega⟩
    rw [depths i (by omega) (by omega)]
    have := valid.inside i (by omega) (by omega)
    omega
  · rw [Block.shift, Nat.add_right_comm, depths _ (by omega) (Nat.le_refl _), valid.back]

/-- The text of `m` stands in that of `s` from the offset `base` on. -/
structure Scan.Window (s m : Scan) (base : Nat) : Prop where
  cells : (s.cells.drop base).take m.length = m.cells

namespace Scan.Window

variable {s m : Scan} {base : Nat}

theorem getElem? (window : s.Window m base) {i : Nat} (inside : i < m.length) :
    s.cells[i + base]? = m.cells[i]? := by
  rw [← window.cells, List.getElem?_take_of_lt inside, List.getElem?_drop, Nat.add_comm]

theorem slice (window : s.Window m base) {span : Span} (upto : span.stop ≤ m.length) :
    (span.shift base).slice s.cells = span.slice m.cells := by
  have short : min span.length (m.length - span.start) = span.length := by
    simp only [Span.length]
    omega
  simp only [Span.slice, Span.length_shift]
  rw [← window.cells, List.drop_take, List.take_take, short, List.drop_drop, Span.shift, Nat.add_comm]

theorem take (window : s.Window m base) {i : Nat} (upto : i ≤ m.length) :
    s.cells.take (i + base) = s.cells.take base ++ m.cells.take i := by
  rw [← window.cells, List.take_take, Nat.min_eq_left upto, Nat.add_comm, List.take_add]

theorem depthAt (window : s.Window m base) {i : Nat} (upto : i ≤ m.length) :
    s.depthAt (i + base) = m.depthAt i + s.depthAt base := by
  rw [depthAt_eq, depthAt_eq, depthAt_eq, window.take upto, Cell.net_append, Int.add_comm]

theorem located (window : s.Window m base) {b : Block} (valid : b.Located m) :
    (b.shift base (s.depthAt base)).Located s := by
  have closing := valid.closing_lt_length
  exact valid.moved (fun i _ upto => window.getElem? (Nat.lt_of_le_of_lt upto closing))
    fun i _ upto => window.depthAt (by omega)

theorem locateBlock (window : s.Window m base) {opening : Nat} {c : Cell} {b : Block}
    (here : m.cells[opening]? = some c) (brace : c.isCodeByte Byte.openBrace = true)
    (found : m.locateBlock opening = .ok b) :
    s.locateBlock (opening + base) = .ok (b.shift base (s.depthAt base)) := by
  rw [← opening_of_locateBlock found here brace]
  exact (window.located (located_of_locateBlock found).1).locateBlock

theorem exists_locateBlock (window : s.Window m base) {b : Block} (valid : b.Located s)
    (lower : base ≤ b.opening) (upper : b.closing < m.length + base) :
    ∃ b', m.locateBlock (b.opening - base) = .ok b' ∧ b = b'.shift base (s.depthAt base) := by
  obtain ⟨c, here, brace⟩ := valid.opening
  have lt := valid.lt
  have place : b.opening - base + base = b.opening := Nat.sub_add_cancel lower
  have last : b.closing + 1 - base + base = b.closing + 1 := by omega
  have there : m.cells[b.opening - base]? = some c := by
    rw [← window.getElem? (by omega), place, here]
  have back : m.depthAt (b.closing + 1 - base) ≤ m.depthAt (b.opening - base) := by
    have first := window.depthAt (by omega : b.opening - base ≤ m.length)
    have second := window.depthAt (by omega : b.closing + 1 - base ≤ m.length)
    rw [place, valid.depth] at first
    rw [last, valid.back] at second
    omega
  obtain ⟨b', located⟩ := Scan.exists_locateBlock there brace (by omega) back
  have own := opening_of_locateBlock located there brace
  refine ⟨b', located, valid.eq_of_opening (window.located (located_of_locateBlock located).1) ?_⟩
  rw [Block.shift, own, place]

end Scan.Window

def Block.widen (b : Block) (distance : Nat) : Block := { b with closing := b.closing + distance }

/-- The text of `s'` is that of `s` with `gap` put in at an offset. -/
structure Scan.Inset (s' s : Scan) (at_ : Nat) (gap : List Cell) : Prop where
  inside : at_ ≤ s.length
  cells : s'.cells = s.cells.take at_ ++ (gap ++ s.cells.drop at_)
  flat : ∀ c ∈ gap, c.weight = 0

namespace Scan.Inset

variable {s' s : Scan} {at_ i : Nat} {gap : List Cell}

theorem getElem?_before (inset : s'.Inset s at_ gap) (before : i < at_) : s'.cells[i]? = s.cells[i]? := by
  have front : (s.cells.take at_).length = at_ := List.length_take_of_le inset.inside
  rw [inset.cells, List.getElem?_append_left (by omega), List.getElem?_take_of_lt before]

theorem getElem?_gap (inset : s'.Inset s at_ gap) (within : i < gap.length) : s'.cells[at_ + i]? = gap[i]? := by
  have front : (s.cells.take at_).length = at_ := List.length_take_of_le inset.inside
  rw [inset.cells, List.getElem?_append_right (by omega), front, Nat.add_sub_cancel_left,
    List.getElem?_append_left within]

theorem getElem?_behind (inset : s'.Inset s at_ gap) (behind : at_ ≤ i) :
    s'.cells[i + gap.length]? = s.cells[i]? := by
  have front : (s.cells.take at_).length = at_ := List.length_take_of_le inset.inside
  rw [inset.cells, List.getElem?_append_right (by omega), front, List.getElem?_append_right (by omega),
    List.getElem?_drop]
  congr 1
  omega

theorem length (inset : s'.Inset s at_ gap) : s'.length = s.length + gap.length := by
  have inside := inset.inside
  simp only [Scan.length] at inside ⊢
  rw [inset.cells, List.length_append, List.length_append, List.length_take_of_le inside, List.length_drop]
  omega

theorem slice_before (inset : s'.Inset s at_ gap) {span : Span} (upto : span.stop ≤ at_) :
    span.slice s'.cells = span.slice s.cells := by
  apply List.ext_getElem?
  intro i
  simp only [Span.slice, List.getElem?_take, List.getElem?_drop, Span.length]
  split
  · exact inset.getElem?_before (by omega)
  · rfl

theorem slice_behind (inset : s'.Inset s at_ gap) {span : Span} (lower : at_ ≤ span.start) :
    (span.shift gap.length).slice s'.cells = span.slice s.cells := by
  apply List.ext_getElem?
  intro i
  rw [Span.slice, Span.slice, Span.length_shift]
  simp only [List.getElem?_take, List.getElem?_drop, Span.shift]
  split
  · rw [Nat.add_right_comm, inset.getElem?_behind (by omega)]
  · rfl

theorem depthAt_before (inset : s'.Inset s at_ gap) (upto : i ≤ at_) : s'.depthAt i = s.depthAt i := by
  have front : (s.cells.take at_).length = at_ := List.length_take_of_le inset.inside
  rw [depthAt_eq, depthAt_eq, inset.cells, List.take_append_of_le_length (by omega), List.take_take,
    Nat.min_eq_left upto]

theorem depthAt_gap (inset : s'.Inset s at_ gap) (upto : i ≤ gap.length) :
    s'.depthAt (at_ + i) = s.depthAt at_ := by
  have front : (s.cells.take at_).length = at_ := List.length_take_of_le inset.inside
  have flat : Cell.net (gap.take i) = 0 :=
    Cell.net_eq_zero fun c member => inset.flat c (List.mem_of_mem_take member)
  have whole : s'.cells.take (at_ + i) = s.cells.take at_ ++ gap.take i := by
    rw [inset.cells, List.take_append, List.take_of_length_le (by omega), front, Nat.add_sub_cancel_left,
      List.take_append_of_le_length upto]
  rw [depthAt_eq, depthAt_eq, whole, Cell.net_append, flat, Int.add_zero]

theorem depthAt_behind (inset : s'.Inset s at_ gap) (lower : at_ ≤ i) :
    s'.depthAt (i + gap.length) = s.depthAt i := by
  have change := s'.net_slice (Nat.add_le_add_right lower gap.length)
  have same := inset.slice_behind (show at_ ≤ (Span.mk at_ i).start from Nat.le_refl at_)
  rw [Span.shift] at same
  rw [same, s.net_slice lower, inset.depthAt_gap (Nat.le_refl _)] at change
  omega

section Blocks

variable {b d : Block}

theorem located_before (inset : s'.Inset s at_ gap) (valid : b.Located s) (before : b.closing < at_) :
    b.Located s' := by
  rw [← b.shift_zero]
  refine valid.moved (fun i _ upto => inset.getElem?_before (by omega)) fun i _ upto => ?_
  rw [Int.add_zero]
  exact inset.depthAt_before (by omega)

theorem located_behind (inset : s'.Inset s at_ gap) (valid : b.Located s) (behind : at_ ≤ b.opening) :
    (b.shift gap.length 0).Located s' :=
  valid.moved (fun i lower _ => inset.getElem?_behind (by omega)) fun i lower _ => by
    rw [inset.depthAt_behind (by omega), Int.add_zero]

theorem located_around (inset : s'.Inset s at_ gap) (valid : d.Located s) (after : d.opening < at_)
    (before : at_ ≤ d.closing) : (d.widen gap.length).Located s' := by
  have lt := valid.lt
  refine ⟨?_, ?_, Nat.lt_add_right _ lt, ?_, fun offset lower upper => ?_, ?_⟩
  · rw [Block.widen, inset.getElem?_before after]
    exact valid.opening
  · rw [Block.widen, inset.getElem?_behind before]
    exact valid.closing
  · rw [Block.widen, inset.depthAt_before (Nat.le_of_lt after), valid.depth]
  · simp only [Block.widen] at lower upper ⊢
    by_cases front : offset ≤ at_
    · rw [inset.depthAt_before front]
      exact valid.inside offset lower (by omega)
    by_cases within : offset ≤ at_ + gap.length
    · obtain ⟨i, rfl⟩ := Nat.exists_eq_add_of_le (Nat.le_of_not_le front)
      rw [inset.depthAt_gap (by omega)]
      exact valid.inside at_ after before
    · obtain ⟨i, rfl⟩ : ∃ i, offset = i + gap.length := ⟨offset - gap.length, by omega⟩
      rw [inset.depthAt_behind (by omega)]
      exact valid.inside i (by omega) (by omega)
  · rw [Block.widen, Nat.add_right_comm, inset.depthAt_behind (by omega), valid.back]

end Blocks

end Scan.Inset

end OutOfLine
