import OutOfLine.Discovery.Search
import OutOfLine.Proofs.Declaration.Head
import OutOfLine.Proofs.Transform

/-! Classes that the search for derived classes reports are found by their names: the head of a derived
class begins as that of every class of its name does, and what it has besides that is too plain to decide
whether a body opens. -/
namespace OutOfLine
open Bytes (Apart)

namespace Derived

def isPlain (b : Byte) : Bool := Byte.isIdent b || Byte.isWhite b || b == Byte.colon

/-- Whether `rest` is left of a text when some plain bytes are passed. -/
def Passes (text rest : Bytes) : Prop := ∃ passed, text = passed ++ rest ∧ ∀ b ∈ passed, isPlain b = true

theorem isPlain_of_isIdent {b : Byte} (ident : Byte.isIdent b = true) : isPlain b = true := by
  simp [isPlain, ident]

theorem isPlain_of_isWhite {b : Byte} (white : Byte.isWhite b = true) : isPlain b = true := by
  simp [isPlain, white]

theorem afterBlanks?_spec {text rest : Bytes} (passed : afterBlanks? text = some rest) :
    ∃ white, text = white ++ rest ∧ white ≠ [] ∧ ∀ b ∈ white, Byte.isWhite b = true := by
  unfold afterBlanks? at passed
  split at passed
  next blank =>
    cases passed
    refine ⟨text.takeWhile Byte.isWhite, List.takeWhile_append_dropWhile.symm, ?_,
      fun b => List.all_eq_true.mp List.all_takeWhile b⟩
    cases text with
    | nil => cases blank
    | cons b text => simp [show Byte.isWhite b = true from blank]
  next => cases passed

namespace Passes

theorem refl (text : Bytes) : Passes text text := ⟨[], rfl, by simp⟩

theorem trans {text rest left : Bytes} (first : Passes text rest) (second : Passes rest left) :
    Passes text left := by
  obtain ⟨one, rfl, plain⟩ := first
  obtain ⟨two, rfl, plain'⟩ := second
  exact ⟨one ++ two, by rw [List.append_assoc], by simpa only [List.forall_mem_append] using ⟨plain, plain'⟩⟩

theorem append {word : Bytes} (plain : ∀ b ∈ word, isPlain b = true) (rest : Bytes) :
    Passes (word ++ rest) rest := ⟨word, rfl, plain⟩

theorem drop_iff {text : Bytes} {n : Nat} :
    Passes text (text.drop n) ↔ ∀ b ∈ text.take n, isPlain b = true := by
  constructor
  · rintro ⟨passed, whole, plain⟩
    have taken : text.take n = passed := by
      apply List.append_cancel_right
      rw [← whole, List.take_append_drop]
    exact taken ▸ plain
  · exact fun plain => ⟨text.take n, (List.take_append_drop n text).symm, plain⟩

theorem drop {p : Byte → Bool} (plain : ∀ b, p b = true → isPlain b = true) {text : Bytes} {n : Nat}
    (within : n ≤ (text.takeWhile p).length) : Passes text (text.drop n) := by
  refine drop_iff.mpr fun b member => ?_
  have run := List.takeWhile_prefix (p := p) (l := text)
  have short := List.prefix_of_prefix_length_le (List.take_prefix n text) run
    (by rw [List.length_take]; omega)
  exact plain b (List.all_eq_true.mp List.all_takeWhile b (short.subset member))

theorem trimAsciiStart (text : Bytes) : Passes text (Blank.trimAsciiStart text) :=
  ⟨text.takeWhile Byte.isWhite, List.takeWhile_append_dropWhile.symm,
    fun b member => isPlain_of_isWhite (List.all_eq_true.mp List.all_takeWhile b member)⟩

theorem dropHead? {word text rest : Bytes} (plain : ∀ b ∈ word, isPlain b = true)
    (dropped : Bytes.dropHead? word text = some rest) : Passes text rest :=
  Bytes.eq_of_dropHead? dropped ▸ append plain rest

theorem afterBlanks? {text rest : Bytes} (passed : Derived.afterBlanks? text = some rest) :
    Passes text rest := by
  obtain ⟨white, rfl, _, only⟩ := afterBlanks?_spec passed
  exact append (fun b member => isPlain_of_isWhite (only b member)) rest

theorem skipWord {word : Bytes} (plain : ∀ b ∈ word, isPlain b = true) (text : Bytes) :
    Passes text (Derived.skipWord word text) := by
  unfold Derived.skipWord
  cases dropped : Bytes.dropHead? word text with
  | none => exact refl text
  | some rest => exact (dropHead? plain dropped).trans (trimAsciiStart rest)

end Passes

theorem passes_headAt {keywords : List Bytes} {name front text : Bytes} {n : Nat}
    (words : ∀ k ∈ keywords, k.IsWord) (named : name.IsWord)
    (here : Declaration.HeadAt keywords name front text n) : Passes text (text.drop n) := by
  obtain ⟨k, known, white, back, rfl, _, only, _, _, rfl⟩ := here
  rw [Nat.add_assoc, ← List.drop_drop, List.drop_left, ← List.drop_drop, List.drop_left, List.drop_left]
  apply (Passes.append (fun b member => isPlain_of_isIdent ((words k known).ident b member)) _).trans
  apply (Passes.append (fun b member => isPlain_of_isWhite (only b member)) _).trans
  exact Passes.append (fun b member => isPlain_of_isIdent (named.ident b member)) back

/-- Behind plain bytes a body opens exactly if it does in front of them. -/
theorem opens_of_passes {cells : List Cell} {n : Nat}
    (passes : Passes (Cell.views cells) ((Cell.views cells).drop n)) :
    Cell.Opens (cells.drop n) ↔ Cell.Opens cells := by
  have flat : ∀ c ∈ cells.take n, c.decides = false := by
    intro c member
    have own := Passes.drop_iff.mp passes c.view (List.map_take ▸ List.mem_map_of_mem member)
    by_contra decides
    rw [Bool.not_eq_false, Cell.decides, Bool.or_eq_true] at decides
    rcases decides with brace | semicolon
    · rw [Cell.view_of_isCodeByte (by decide) brace] at own
      revert own
      decide
    · rw [Cell.view_of_isCodeByte (by decide) semicolon] at own
      revert own
      decide
  rw [← Cell.opens_append_of_flat flat, List.take_append_drop]

/-- A head that opens a body begins a match that does, or stands behind the start of one. -/
theorem exists_opening_match {s : Scan} {keywords : List Bytes} {name front text : Bytes} {n : Nat}
    (words : ∀ k ∈ keywords, k.IsWord) (named : name.IsWord) (whole : Cell.views s.cells = front ++ text)
    (here : Declaration.HeadAt keywords name front text n)
    (opens : Cell.Opens (s.cells.drop front.length)) :
    ∃ m ∈ (Declaration.head keywords name).matches (Cell.views s.cells),
      m.1.start ≤ front.length ∧ Cell.Opens (s.cells.drop m.1.stop) := by
  obtain ⟨m, among, covers⟩ := Declaration.exists_match words named here
  rw [← whole] at among
  obtain ⟨front', rest, n', whole', here', span⟩ := Declaration.headAt_of_mem_matches words named among
  have passes := passes_headAt words named here'
  rw [span] at covers
  dsimp only at covers
  have rest_eq : rest = Cell.views (s.cells.drop front'.length) := by
    rw [Cell.views, List.map_drop, ← Cell.views, whole', List.drop_left]
  have reaches : Passes rest (rest.drop (front.length - front'.length)) :=
    Passes.drop_iff.mpr fun b member => Passes.drop_iff.mp passes b
      ((List.take_subset_take_left rest (by omega)) member)
  rw [rest_eq] at passes reaches
  have first := opens_of_passes reaches
  rw [List.drop_drop, Nat.add_sub_of_le (by omega)] at first
  have second := opens_of_passes passes
  rw [List.drop_drop] at second
  refine ⟨m, among, by rw [span]; dsimp only; omega, ?_⟩
  rw [span]
  exact second.mpr (first.mp opens)

end Derived

end OutOfLine
