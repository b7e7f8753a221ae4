import Mathlib.Data.List.DropRight
import OutOfLine.Proofs.Signature.Parameters
import OutOfLine.Proofs.Splice.Trace

/-! Brackets in pairs, angle brackets among them where they begin right behind a name. In a list
that closes all its brackets the search for default arguments finds those of the parameters. -/

namespace OutOfLine

namespace Signature
open Cell

/-- The brackets that are open behind the byte `b` of code, which follows `before`: each is given by the sign
that closes it, the innermost first. A less-than sign opens a list where `opens` holds of the byte in front
of it and is an error elsewhere. The tip of an arrow closes nothing. -/
def bracketStep? (opens : Byte → Bool) (open_ : List Byte) (before b : Byte) : Option (List Byte) :=
  if b = Byte.openParen then some (Byte.closeParen :: open_)
  else if b = Byte.openBracket then some (Byte.closeBracket :: open_)
  else if b = Byte.openBrace then some (Byte.closeBrace :: open_)
  else if b = Byte.less then if opens before then some (Byte.greater :: open_) else none
  else if b = Byte.closeParen ∨ b = Byte.closeBracket ∨ b = Byte.closeBrace ∨
      b = Byte.greater ∧ before ≠ Byte.minus then
    if open_.head? = some b then some open_.tail else none
  else some open_

/-- Whether cells close all brackets in their order, with `open_` open in front of them, and have the signs
`separators` within brackets only. -/
def enclosed (opens : Byte → Bool) (separators : Bytes) (open_ : List Byte) (before : Byte) :
    List Cell → Bool
  | [] => open_.isEmpty
  | c :: cells =>
    if c.isCode then
      !(open_.isEmpty && separators.contains c.byte) &&
        (bracketStep? opens open_ before c.byte).any fun open' => enclosed opens separators open' c.byte cells
    else enclosed opens separators open_ c.byte cells

variable {opens : Byte → Bool} {separators : Bytes} {open_ open' : List Byte} {before b : Byte} {c : Cell}
  {cells : List Cell}

theorem enclosed_cons (closed : enclosed opens separators open_ before (c :: cells) = true) :
    c.isCode = false ∧ enclosed opens separators open_ c.byte cells = true ∨
    c.isCode = true ∧ (open_ = [] → c.byte ∉ separators) ∧ ∃ open',
      bracketStep? opens open_ before c.byte = some open' ∧
        enclosed opens separators open' c.byte cells = true := by
  rw [enclosed] at closed
  split at closed
  next code =>
    rw [Bool.and_eq_true, Option.any_eq_true] at closed
    obtain ⟨apart, open', step, rest⟩ := closed
    exact .inr ⟨code, by simpa [imp_iff_not_or] using apart, open', step, rest⟩
  next code => exact .inl ⟨by simpa using code, closed⟩

theorem bracketStep?_cases (step : bracketStep? opens open_ before b = some open') :
    (b = Byte.openParen ∧ open' = Byte.closeParen :: open_) ∨
    ((b = Byte.openBracket ∧ open' = Byte.closeBracket :: open_) ∨
      b = Byte.openBrace ∧ open' = Byte.closeBrace :: open_) ∨
    (b = Byte.less ∧ opens before = true ∧ open' = Byte.greater :: open_) ∨
    ((b = Byte.closeParen ∨ b = Byte.closeBracket ∨ b = Byte.closeBrace ∨
      b = Byte.greater ∧ before ≠ Byte.minus) ∧ open_ = b :: open') ∨
    (b ∉ [Byte.openParen, Byte.openBracket, Byte.openBrace, Byte.less, Byte.closeParen, Byte.closeBracket,
      Byte.closeBrace] ∧ (b = Byte.greater → before = Byte.minus) ∧ open' = open_) := by
  unfold bracketStep? at step
  split at step
  next same => exact .inl ⟨same, (Option.some.inj step).symm⟩
  split at step
  next same => exact .inr (.inl (.inl ⟨same, (Option.some.inj step).symm⟩))
  split at step
  next same => exact .inr (.inl (.inr ⟨same, (Option.some.inj step).symm⟩))
  split at step
  next same =>
    split at step
    next opened => exact .inr (.inr (.inl ⟨same, opened, (Option.some.inj step).symm⟩))
    next => cases step
  split at step
  next closes =>
    split at step
    next first =>
      obtain ⟨rest, rfl⟩ := List.head?_eq_some_iff.mp first
      exact .inr (.inr (.inr (.inl ⟨closes, by rw [← Option.some.inj step]; rfl⟩)))
    next => cases step
  next noParen noBracket noBrace noLess closes =>
    simp only [not_or, not_and, not_not] at closes
    obtain ⟨one, two, three, arrow⟩ := closes
    exact .inr (.inr (.inr (.inr ⟨by simp_all, arrow, (Option.some.inj step).symm⟩)))

structure DefaultState.Tracks (st : DefaultState) (open_ : List Byte) : Prop where
  all : st.nest + st.angle = open_.length
  angle : st.angle = open_.count Byte.greater

namespace DefaultState.Tracks

variable {st : DefaultState} {closing : Byte}

theorem isTop (tracks : st.Tracks open_) : st.isTop = open_.isEmpty := by
  have all := tracks.all
  rw [Bool.eq_iff_iff, DefaultState.isTop, Bool.and_eq_true, beq_iff_eq, beq_iff_eq, List.isEmpty_iff,
    ← List.length_eq_zero_iff]
  omega

theorem push (tracks : st.Tracks open_) (other : closing ≠ Byte.greater) :
    ({ st with nest := st.nest + 1 } : DefaultState).Tracks (closing :: open_) := by
  obtain ⟨all, angle⟩ := tracks
  refine ⟨?_, by rw [List.count_cons_of_ne other, angle]⟩
  rw [List.length_cons, ← all]
  dsimp only
  omega

theorem pushAngle (tracks : st.Tracks open_) :
    ({ st with angle := st.angle + 1 } : DefaultState).Tracks (Byte.greater :: open_) := by
  obtain ⟨all, angle⟩ := tracks
  refine ⟨?_, by rw [List.count_cons_self, ← angle]⟩
  rw [List.length_cons, ← all]
  dsimp only
  omega

theorem pop (tracks : st.Tracks (closing :: open_)) (other : closing ≠ Byte.greater) : 0 < st.nest ∧
    ({ st with nest := st.nest - 1 } : DefaultState).Tracks open_ := by
  obtain ⟨all, angle⟩ := tracks
  rw [List.count_cons_of_ne other] at angle
  rw [List.length_cons] at all
  have := open_.count_le_length (a := Byte.greater)
  exact ⟨by omega, by dsimp only; omega, angle⟩

theorem popAngle (tracks : st.Tracks (Byte.greater :: open_)) : 0 < st.angle ∧
    ({ st with angle := st.angle - 1 } : DefaultState).Tracks open_ := by
  obtain ⟨all, angle⟩ := tracks
  rw [List.count_cons_self] at angle
  rw [List.length_cons] at all
  exact ⟨by omega, by dsimp only; omega, by dsimp only; omega⟩

/-- The counts follow the brackets if a list is opened behind the last byte of a name only. -/
theorem after (tracks : st.Tracks open_) (blanks : Nat) (glue : opens before = true → isGlue before = true)
    (step : bracketStep? opens open_ before b = some open')
    (kept : open_ = [] → b = Byte.equals → st.removing ≠ none) :
    (st.after before b blanks).Tracks open' ∧ (st.after before b blanks).removing = st.removing := by
  have closes (closing : Byte) (round : closing = Byte.closeParen ∨ closing = Byte.closeBracket ∨
      closing = Byte.closeBrace) (first : open_ = closing :: open') :
      (st.after before closing blanks).Tracks open' ∧
        (st.after before closing blanks).removing = st.removing := by
    have other : closing ≠ Byte.greater := by rintro rfl; revert round; decide
    have noOpening : ¬(closing = Byte.openParen ∨ closing = Byte.openBracket ∨
        closing = Byte.openBrace) := by
      rcases round with rfl | rfl | rfl <;> decide
    obtain ⟨positive, rest⟩ := (first ▸ tracks).pop other
    rw [DefaultState.after, if_neg noOpening, if_pos ⟨round, positive⟩]
    exact ⟨rest, rfl⟩
  rcases bracketStep?_cases step with ⟨rfl, rfl⟩ | (⟨rfl, rfl⟩ | ⟨rfl, rfl⟩) | ⟨rfl, opened, rfl⟩ |
    ⟨round | round | round | ⟨rfl, tip⟩, first⟩ | ⟨other, arrow, rfl⟩
  · exact ⟨tracks.push (by decide), rfl⟩
  · exact ⟨tracks.push (by decide), rfl⟩
  · exact ⟨tracks.push (by decide), rfl⟩
  · have noClosing : ¬(Byte.less = Byte.closeParen ∨ Byte.less = Byte.closeBracket ∨
        Byte.less = Byte.closeBrace) := by decide
    rw [DefaultState.after, if_neg (by decide), if_neg fun both => noClosing both.1, if_pos ⟨rfl, glue opened⟩]
    exact ⟨tracks.pushAngle, rfl⟩
  · exact closes b (.inl round) first
  · exact closes b (.inr (.inl round)) first
  · exact closes b (.inr (.inr round)) first
  · obtain ⟨positive, rest⟩ := (first ▸ tracks).popAngle
    have noClosing : ¬(Byte.greater = Byte.closeParen ∨ Byte.greater = Byte.closeBracket ∨
        Byte.greater = Byte.closeBrace) := by decide
    have noLess : Byte.greater ≠ Byte.less := by decide
    rw [DefaultState.after, if_neg (by decide), if_neg fun both => noClosing both.1,
      if_neg fun both => noLess both.1, if_pos ⟨rfl, positive, tip⟩]
    exact ⟨rest, rfl⟩
  · simp only [List.mem_cons, List.not_mem_nil, or_false, not_or] at other
    rw [DefaultState.after, if_neg (by simp [other]), if_neg (by simp [other]), if_neg (by simp [other]),
      if_neg fun both => both.2.2 (arrow both.1), if_neg fun both => ?_]
    · exact ⟨tracks, rfl⟩
    · rw [tracks.isTop, List.isEmpty_iff] at both
      exact kept both.2.1 both.1 both.2.2

end DefaultState.Tracks

def blanksBehind (blanks at_ : Nat) : List Cell → Nat
  | [] => blanks
  | c :: cells => blanksBehind (if Byte.isBlank c.byte then blanks else at_ + 1) (at_ + 1) cells

theorem blanksBehind_concat (blanks at_ : Nat) (cells : List Cell) (c : Cell) :
    blanksBehind blanks at_ (cells ++ [c]) =
      if Byte.isBlank c.byte then blanksBehind blanks at_ cells else at_ + cells.length + 1 := by
  induction cells generalizing blanks at_ with
  | nil => rfl
  | cons d cells ih =>
    rw [List.cons_append, blanksBehind, ih, blanksBehind, List.length_cons, Nat.add_right_comm at_ 1,
      Nat.add_assoc at_]

/-- Behind a text without blanks in front they begin where the text does without its last ones. -/
theorem blanksBehind_eq (at_ : Nat) (cells : List Cell) :
    blanksBehind at_ at_ cells = at_ + (cells.rdropWhile (Byte.isBlank ·.byte)).length := by
  induction cells using List.reverseRecOn with
  | nil => simp [blanksBehind]
  | append_singleton cells c ih =>
    rw [blanksBehind_concat, List.rdropWhile_concat]
    split
    · exact ih
    · rw [List.length_append, Nat.add_assoc]
      rfl

section Walk

variable {st : DefaultState} {blanks at_ : Nat} {piece rest : List Cell}

/-- A step of the search that meets no separator. -/
theorem defaultsFrom_cons (more : cells ≠ []) (plain : c.isCode = true → open_ = [] → c.byte ≠ Byte.comma)
    (tracks : st.Tracks open_) : defaultsFrom st before blanks at_ (c :: cells) =
      defaultsFrom (if c.isCode then st.after before c.byte blanks else st) c.byte
        (if Byte.isBlank c.byte then blanks else at_ + 1) (at_ + 1) cells := by
  have inside : ¬(cells = [] ∨ c.isCodeByte Byte.comma = true ∧ st.isTop = true) := by
    rintro (none | ⟨comma, top⟩)
    · exact more none
    · obtain ⟨byte, code⟩ := of_isCodeByte comma
      rw [tracks.isTop, List.isEmpty_iff] at top
      exact plain code top byte
  rw [defaultsFrom, if_neg inside]
  split <;> rfl

/-- Over a text with its brackets in pairs, and with commas and equals signs in them only, the search comes
back to the state it was in. -/
theorem defaultsFrom_enclosed (glue : ∀ b, opens b = true → DefaultState.isGlue b = true)
    (comma : Byte.comma ∈ separators) (more : rest ≠ []) (tracks : st.Tracks open_)
    (kept : Byte.equals ∈ separators ∨ st.removing ≠ none)
    (closed : enclosed opens separators open_ before piece = true) :
    defaultsFrom st before blanks at_ (piece ++ rest) =
      defaultsFrom { removing := st.removing } (piece.foldl (fun _ c => c.byte) before)
        (blanksBehind blanks at_ piece) (at_ + piece.length) rest := by
  induction piece generalizing st before open_ blanks at_ with
  | nil =>
    rw [enclosed, List.isEmpty_iff] at closed
    obtain ⟨all, _⟩ := closed ▸ tracks
    rw [List.length_nil] at all
    obtain ⟨nest, angle, removing⟩ := st
    obtain ⟨rfl, rfl⟩ : nest = 0 ∧ angle = 0 := by
      dsimp only at all
      omega
    rfl
  | cons c piece ih =>
    have some_more : piece ++ rest ≠ [] := by simp [more]
    rw [List.cons_append, List.foldl_cons, blanksBehind, List.length_cons, Nat.add_comm piece.length,
      ← Nat.add_assoc]
    rcases enclosed_cons closed with ⟨other, closed⟩ | ⟨code, apart, open', step, closed⟩
    · rw [defaultsFrom_cons some_more (by simp [other]) tracks, if_neg (by simp [other])]
      exact ih tracks kept closed
    · obtain ⟨tracks', same⟩ := tracks.after blanks (glue before) step fun top equals =>
        kept.resolve_left fun known => apart top (equals ▸ known)
      rw [defaultsFrom_cons some_more (fun _ top same => apart top (same ▸ comma)) tracks, if_pos code,
        ih tracks' (same ▸ kept) closed, same]

end Walk

theorem bracketStep?_parens (code : c.isCode = true)
    (step : bracketStep? opens open_ before c.byte = some open') :
    (open'.count Byte.closeParen : Int) = open_.count Byte.closeParen + rise c := by
  have rises : rise c = if c.byte = Byte.openParen then 1 else if c.byte = Byte.closeParen then -1 else 0 := by
    simp [rise, isCodeByte, code]
  rw [rises]
  have pushed {closing : Byte} (other : closing ≠ Byte.closeParen) :
      (closing :: open_).count Byte.closeParen = open_.count Byte.closeParen := List.count_cons_of_ne other
  rcases bracketStep?_cases step with ⟨same, rfl⟩ | (⟨same, rfl⟩ | ⟨same, rfl⟩) | ⟨same, _, rfl⟩ |
    ⟨closes, rfl⟩ | ⟨other, _, rfl⟩
  · rw [if_pos same, List.count_cons_self]
    rfl
  · rw [same, if_neg (by decide), if_neg (by decide), pushed (by decide), Int.add_zero]
  · rw [same, if_neg (by decide), if_neg (by decide), pushed (by decide), Int.add_zero]
  · rw [same, if_neg (by decide), if_neg (by decide), pushed (by decide), Int.add_zero]
  · by_cases paren : c.byte = Byte.closeParen
    · rw [paren, if_neg (by decide), if_pos rfl, List.count_cons_self]
      omega
    · have noOpening : c.byte ≠ Byte.openParen := by
        rcases closes with same | same | same | ⟨same, _⟩ <;> rw [same] <;> decide
      rw [if_neg noOpening, if_neg paren, List.count_cons_of_ne paren, Int.add_zero]
  · simp only [List.mem_cons, List.not_mem_nil, or_false, not_or] at other
    rw [if_neg other.1, if_neg other.2.2.2.2.1, Int.add_zero]

/-- A text with its brackets in pairs closes the parentheses that are open in front of it, and never more
than that. -/
theorem parens_of_enclosed (closed : enclosed opens separators open_ before cells = true) :
    open_.count Byte.closeParen + parens cells = 0 ∧
      ∀ j, 0 ≤ open_.count Byte.closeParen + parens (cells.take j) := by
  induction cells generalizing open_ before with
  | nil =>
    rw [enclosed, List.isEmpty_iff] at closed
    rw [closed]
    exact ⟨rfl, fun j => by simp⟩
  | cons c cells ih =>
    obtain ⟨open', step, closed⟩ : ∃ open',
        (open'.count Byte.closeParen : Int) = open_.count Byte.closeParen + rise c ∧
          enclosed opens separators open' c.byte cells = true := by
      rcases enclosed_cons closed with ⟨other, closed⟩ | ⟨code, _, open', step, closed⟩
      · exact ⟨open_, by simp [rise, isCodeByte, other], closed⟩
      · exact ⟨open', bracketStep?_parens code step, closed⟩
    obtain ⟨ends, stays⟩ := ih closed
    refine ⟨by rw [parens_cons]; omega, fun j => ?_⟩
    cases j with
    | zero => simp
    | succ j =>
      have := stays j
      rw [List.take_succ_cons, parens_cons]
      omega

end Signature

open Cell

/-- A parameter: its declarator, and the default argument behind its equals sign. -/
structure Parameter where
  declarator : List Cell
  default : Option (List Cell) := none

namespace Parameter

def cells (p : Parameter) : List Cell :=
  p.declarator ++ p.default.elim [] (⟨Byte.equals, .code⟩ :: ·)

def bare (p : Parameter) : List Cell :=
  p.default.elim p.declarator fun _ => p.declarator.rdropWhile (Byte.isBlank ·.byte)

/-- Whether all brackets of a parameter are closed in their order, commas stand within brackets only, and in
the declarator equals signs do too. The byte `before` is the one in front of the parameter. -/
def wellFormed (opens : Byte → Bool) (before : Byte) (p : Parameter) : Bool :=
  Signature.enclosed opens [Byte.comma, Byte.equals] [] before p.declarator &&
    p.default.all (Signature.enclosed opens [Byte.comma] [] Byte.equals)

def allWellFormed (opens : Byte → Bool) (before : Byte) : List Parameter → Bool
  | [] => true
  | p :: ps => p.wellFormed opens before && allWellFormed opens Byte.comma ps

def separated (parts : List (List Cell)) : List Cell := [⟨Byte.comma, .code⟩].intercalate parts

def listed (parts : List (List Cell)) : List Cell :=
  ⟨Byte.openParen, .code⟩ :: (separated parts ++ [⟨Byte.closeParen, .code⟩])

def removal? (at_ : Nat) (p : Parameter) : Option Splice :=
  p.default.map fun _ => .remove (at_ + p.bare.length) (at_ + p.cells.length)

def removals (at_ : Nat) : List Parameter → List Splice
  | [] => []
  | p :: ps => (p.removal? at_).toList ++ removals (at_ + p.cells.length + 1) ps

theorem separated_cons_cons (first second : List Cell) (parts : List (List Cell)) :
    separated (first :: second :: parts) = first ++ ⟨Byte.comma, .code⟩ :: separated (second :: parts) := by
  rw [separated, List.intercalate_cons_cons, List.append_assoc]
  rfl

theorem separated_singleton (part : List Cell) : separated [part] = part := List.intercalate_singleton

theorem cells_begin (p : Parameter) : p.bare <+: p.cells := by
  rw [bare, cells]
  cases p.default with
  | none => exact List.prefix_append _ _
  | some value => exact (List.rdropWhile_prefix _ _).trans (List.prefix_append _ _)

section Search

open Signature

variable {opens : Byte → Bool} {before : Byte} {blanks at_ : Nat} {p : Parameter} {params : List Parameter}
  {rest : List Cell}

/-- The first equals sign begins a default argument, with the blanks in front of it. -/
theorem defaultsFrom_equals (more : rest ≠ []) :
    defaultsFrom {} before blanks at_ (⟨Byte.equals, .code⟩ :: rest) =
      defaultsFrom { removing := some blanks } Byte.equals (at_ + 1) (at_ + 1) rest := by
  have inside : ¬(rest = [] ∨ isCodeByte Byte.comma ⟨Byte.equals, .code⟩ = true ∧
      DefaultState.isTop {} = true) := by
    rintro (none | ⟨comma, _⟩)
    · exact more none
    · cases comma
  rw [defaultsFrom, if_neg inside]
  rfl

theorem defaultsFrom_separator {sign : Cell} {removing : Option Nat}
    (ends : rest = [] ∨ sign.isCodeByte Byte.comma = true) (solid : Byte.isBlank sign.byte = false) :
    defaultsFrom { removing } before blanks at_ (sign :: rest) = removing.toList.map (.remove · at_) ++
      defaultsFrom {} sign.byte (at_ + 1) (at_ + 1) rest := by
  rw [defaultsFrom, if_pos (ends.imp_right fun comma => ⟨comma, rfl⟩), solid]
  rfl

theorem defaultsFrom_parameter (glue : ∀ b, opens b = true → DefaultState.isGlue b = true)
    (formed : p.wellFormed opens before = true) {sign : Cell}
    (ends : rest = [] ∨ sign.isCodeByte Byte.comma = true) (solid : Byte.isBlank sign.byte = false) :
    defaultsFrom {} before at_ at_ (p.cells ++ sign :: rest) = (p.removal? at_).toList ++
      defaultsFrom {} sign.byte (at_ + p.cells.length + 1) (at_ + p.cells.length + 1) rest := by
  obtain ⟨declarator, default⟩ := p
  rw [wellFormed, Bool.and_eq_true] at formed
  obtain ⟨plain, formed⟩ := formed
  have walked {rest : List Cell} (more : rest ≠ []) :=
    @defaultsFrom_enclosed opens _ [] before {} at_ at_ declarator rest glue (by decide) more ⟨rfl, rfl⟩
      (.inl (by decide)) plain
  cases default with
  | none =>
    rw [cells, Option.elim_none, List.append_nil, walked (List.cons_ne_nil _ _),
      defaultsFrom_separator ends solid]
    rfl
  | some value =>
    have size : (Parameter.mk declarator (some value)).cells.length = declarator.length + 1 + value.length := by
      simp only [cells, Option.elim_some, List.length_append, List.length_cons]
      omega
    rw [removal?, size, cells, Option.elim_some, List.append_assoc, List.cons_append,
      walked (List.cons_ne_nil _ _), defaultsFrom_equals (by simp),
      defaultsFrom_enclosed glue (by decide) (List.cons_ne_nil _ _) ⟨rfl, rfl⟩ (.inr (by simp)) formed,
      defaultsFrom_separator ends solid, blanksBehind_eq, Nat.add_assoc at_, Nat.add_assoc at_]
    rfl

theorem allWellFormed_cons {ps : List Parameter} : allWellFormed opens before (p :: ps) = true ↔
    p.wellFormed opens before = true ∧ allWellFormed opens Byte.comma ps = true := Bool.and_eq_true_iff

/-- In a list of parameters the search finds their default arguments and nothing else. -/
theorem defaultsFrom_separated (glue : ∀ b, opens b = true → DefaultState.isGlue b = true)
    (formed : allWellFormed opens before params = true) :
    defaultsFrom {} before at_ at_ (separated (params.map cells) ++ [⟨Byte.closeParen, .code⟩]) =
      removals at_ params := by
  induction params generalizing before at_ with
  | nil => exact defaultsFrom_separator (.inl rfl) rfl
  | cons p params ih =>
    obtain ⟨own, others⟩ := allWellFormed_cons.mp formed
    cases params with
    | nil =>
      rw [List.map_singleton, separated_singleton, defaultsFrom_parameter glue own (.inl rfl) rfl]
      rfl
    | cons q params =>
      rw [List.map_cons, List.map_cons, separated_cons_cons, List.append_assoc, List.cons_append,
        defaultsFrom_parameter glue own (.inr rfl) rfl]
      exact congrArg _ (ih others)

end Search

section Removal

variable {at_ : Nat} {p : Parameter} {params : List Parameter} {source rest : List Cell} {ws : List Splice}

theorem le_of_mem_removals {w : Splice} (member : w ∈ removals at_ params) : at_ ≤ w.span.start := by
  induction params generalizing at_ with
  | nil => cases member
  | cons p params ih =>
    rcases List.mem_append.mp member with own | later
    · obtain ⟨value, _, rfl⟩ := Option.map_eq_some_iff.mp (Option.mem_toList.mp own)
      exact Nat.le_add_right _ _
    · have := ih later
      omega

/-- Without its default argument a parameter is its declarator. -/
theorem applyFrom_removal (left : source.drop at_ = p.cells ++ rest)
    (behind : ∀ w ∈ ws, at_ + p.cells.length ≤ w.span.start) :
    Splice.applyFrom source at_ ((p.removal? at_).toList ++ ws) =
      p.bare ++ Splice.applyFrom source (at_ + p.cells.length) ws := by
  have slice {part : List Cell} (begins : part <+: p.cells) :
      (Span.mk at_ (at_ + part.length)).slice source = part := by
    obtain ⟨more, whole⟩ := begins
    rw [Span.slice, Span.length, Nat.add_sub_cancel_left, left, ← whole, List.append_assoc, List.take_left]
  obtain ⟨declarator, default⟩ := p
  cases default with
  | none =>
    rw [removal?, Option.map_none, Option.toList_none, List.nil_append,
      Splice.applyFrom_of_le (Nat.le_add_right _ _) behind, slice (List.prefix_refl _), cells, bare,
      Option.elim_none, List.append_nil, Option.elim_none]
  | some value =>
    rw [removal?, Option.map_some, Option.toList_some, List.singleton_append, Splice.applyFrom,
      if_neg (Nat.not_lt.mpr (by exact Nat.le_add_right _ _))]
    exact congrArg (· ++ _) ((List.append_nil _).trans (slice (cells_begin _)))

/-- Without all default arguments a list has the same declarators in the same order. -/
theorem applyFrom_removals (left : source.drop at_ = separated (params.map cells) ++ rest) :
    Splice.applyFrom source at_ (removals at_ params) = separated (params.map bare) ++ rest := by
  induction params generalizing at_ with
  | nil => exact left
  | cons p params ih =>
    cases params with
    | nil =>
      rw [List.map_singleton, separated_singleton] at left ⊢
      rw [removals, removals, applyFrom_removal left (by simp), Splice.applyFrom, ← List.drop_drop, left,
        List.drop_left]
    | cons q params =>
      rw [List.map_cons, List.map_cons, separated_cons_cons, List.append_assoc] at left ⊢
      have comma : source.drop (at_ + p.cells.length) =
          ⟨Byte.comma, .code⟩ :: separated (q.cells :: params.map cells) ++ rest := by
        rw [← List.drop_drop, left, List.drop_left]
      have behind : ∀ w ∈ removals (at_ + p.cells.length + 1) (q :: params),
          at_ + p.cells.length + 1 ≤ w.span.start := fun w member => le_of_mem_removals member
      have later := @ih (at_ + p.cells.length + 1) (by rw [← List.drop_drop, comma]; rfl)
      have sign : (Span.mk (at_ + p.cells.length) (at_ + p.cells.length + 1)).slice source =
          [⟨Byte.comma, .code⟩] := by
        rw [Span.slice, Span.length, Nat.add_sub_cancel_left, comma]
        rfl
      rw [removals, applyFrom_removal left fun w member => Nat.le_of_succ_le (behind w member),
        Splice.applyFrom_of_le (Nat.le_succ _) behind, later, sign]
      rfl

end Removal

section Parens

open Signature

structure Level (cells : List Cell) : Prop where
  closes : parens cells = 0
  stays : ∀ j, 0 ≤ parens (cells.take j)

theorem Level.nil : Level [] := ⟨rfl, fun j => by simp⟩

theorem Level.append {first second : List Cell} (one : Level first) (two : Level second) :
    Level (first ++ second) := by
  refine ⟨by rw [parens_append, one.closes, two.closes, Int.add_zero], fun j => ?_⟩
  have := one.stays j
  have := two.stays (j - first.length)
  rw [List.take_append, parens_append]
  omega

theorem Level.comma : Level [⟨Byte.comma, .code⟩] := by
  refine ⟨rfl, fun j => ?_⟩
  cases j with
  | zero => exact Int.le_refl 0
  | succ j =>
    rw [List.take_succ_cons, List.take_nil]
    exact Int.le_refl 0

theorem Level.separated {parts : List (List Cell)} (each : ∀ part ∈ parts, Level part) :
    Level (separated parts) := by
  induction parts with
  | nil => exact .nil
  | cons part parts ih =>
    have own := each part (.head _)
    have ih := ih fun other member => each other (.tail _ member)
    cases parts with
    | nil => rwa [separated_singleton]
    | cons next parts =>
      rw [separated_cons_cons]
      exact own.append (Level.append .comma ih)

theorem Level.rdropWhile {cells : List Cell} (level : Level cells) :
    Level (cells.rdropWhile (Byte.isBlank ·.byte)) := by
  have blank : parens (cells.rtakeWhile (Byte.isBlank ·.byte)) = 0 := by
    refine List.sum_eq_zero fun n member => ?_
    obtain ⟨c, inside, rfl⟩ := List.mem_map.mp member
    have own := List.mem_rtakeWhile_imp inside
    have other {b : Byte} (solid : Byte.isBlank b = false) : c.isCodeByte b = false := by
      rw [Bool.eq_false_iff]
      intro same
      rw [(of_isCodeByte same).1, solid] at own
      cases own
    rw [rise, other rfl, other rfl, if_neg Bool.false_ne_true, if_neg Bool.false_ne_true]
  have closes := level.closes
  rw [← @List.rdropWhile_append_rtakeWhile _ (Byte.isBlank ·.byte) cells, parens_append, blank,
    Int.add_zero] at closes
  refine ⟨closes, fun j => ?_⟩
  rw [List.prefix_iff_eq_take.mp (List.rdropWhile_prefix (Byte.isBlank ·.byte) cells), List.take_take]
  exact level.stays _

theorem level_of_enclosed {opens : Byte → Bool} {separators : Bytes} {before : Byte} {cells : List Cell}
    (closed : enclosed opens separators [] before cells = true) : Level cells := by
  obtain ⟨closes, stays⟩ := parens_of_enclosed closed
  exact ⟨by simpa using closes, fun j => by simpa using stays j⟩

theorem level_bare {opens : Byte → Bool} {before : Byte} {p : Parameter}
    (formed : p.wellFormed opens before = true) : Level p.bare := by
  rw [wellFormed, Bool.and_eq_true] at formed
  have level := level_of_enclosed formed.1
  unfold bare
  cases p.default with
  | none => exact level
  | some value => exact level.rdropWhile

theorem level_of_allWellFormed {opens : Byte → Bool} {before : Byte} {params : List Parameter}
    (formed : allWellFormed opens before params = true) : ∀ part ∈ params.map bare, Level part := by
  induction params generalizing before with
  | nil => simp
  | cons p params ih =>
    obtain ⟨own, others⟩ := allWellFormed_cons.mp formed
    exact List.forall_mem_cons.mpr ⟨level_bare own, ih others⟩

/-- In parentheses such texts are a parameter list as a whole. -/
theorem parameterList_listed (front : List Cell) {parts : List (List Cell)}
    (each : ∀ part ∈ parts, Level part) : ParameterList (front ++ listed parts) front.length
      ⟨front.length, (front ++ listed parts).length⟩ := by
  obtain ⟨closes, stays⟩ := Level.separated each
  have part (k : Nat) : (Span.mk front.length k).slice (front ++ listed parts) =
      (listed parts).take (k - front.length) := by
    rw [Span.slice, List.drop_left]
    rfl
  have size : (front ++ listed parts).length = front.length + ((separated parts).length + 2) := by
    simp [listed]
  refine ⟨Nat.le_refl _, fun i c low high => absurd high (Nat.not_lt.mpr low),
    ⟨⟨Byte.openParen, .code⟩, ?_, rfl⟩, by dsimp only; omega, Nat.le_refl _, ?_, fun k low high => ?_⟩
  · rw [List.getElem?_append_right (Nat.le_refl _), Nat.sub_self]
    rfl
  · rw [part, List.length_append, Nat.add_sub_cancel_left, List.take_length, listed, parens_cons,
      parens_append, closes]
    rfl
  · dsimp only at low high
    have after : k - front.length = k - front.length - 1 + 1 := by omega
    have := stays (k - front.length - 1)
    have rises : rise ⟨Byte.openParen, .code⟩ = 1 := rfl
    rw [part, after, listed, List.take_succ_cons, parens_cons, rises,
      List.take_append_of_le_length (by omega)]
    omega

end Parens

end Parameter

namespace Signature

variable {sig : Signature} {p : Span} {params : List Parameter} {opens : Byte → Bool}

theorem slice_of_listed {parts : List (List Cell)} (given : p.slice sig.cells = Parameter.listed parts) :
    (Span.mk (p.start + 1) p.stop).slice sig.cells =
      Parameter.separated parts ++ [⟨Byte.closeParen, .code⟩] := by
  have behind := congrArg (List.drop 1) given
  rwa [Span.slice, List.drop_take, List.drop_drop] at behind

theorem separated_of_listed {parts : List (List Cell)} (given : p.slice sig.cells = Parameter.listed parts)
    (length : p.start + 1 < p.stop) (inside : p.stop ≤ sig.cells.length) :
    (sig.cells.take (p.stop - 1)).drop (p.start + 1) = Parameter.separated parts := by
  have whole := slice_of_listed given
  have size := congrArg List.length whole
  rw [Span.slice, Span.length, List.length_take, List.length_drop, List.length_append,
    List.length_singleton] at size
  have shorter := congrArg (List.take (p.stop - 1 - (p.start + 1))) whole
  rw [Span.slice, List.take_take, Span.length, Nat.min_eq_left (by dsimp only; omega),
    List.take_left' (by dsimp only at size; omega)] at shorter
  rw [List.drop_take]
  exact shorter

/-- The edits that take out default arguments are those of the parameters. -/
theorem defaultRemovals_eq (list : sig.parameters = some p)
    (given : p.slice sig.cells = Parameter.listed (params.map Parameter.cells))
    (glue : ∀ b, opens b = true → DefaultState.isGlue b = true)
    (formed : Parameter.allWellFormed opens Byte.openParen params = true) :
    sig.defaultRemovals = Parameter.removals (p.start + 1) params := by
  rw [defaultRemovals, list]
  dsimp only
  rw [slice_of_listed given, Parameter.defaultsFrom_separated glue formed]

end Signature

end OutOfLine
