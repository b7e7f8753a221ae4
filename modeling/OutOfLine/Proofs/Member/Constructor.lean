import OutOfLine.Proofs.Member.Statement

/-! Constructors with initializers. The walk takes such a definition through its body in one step, unless
a brace in the name of an initializer is taken for the body. -/
namespace OutOfLine

namespace Cell

def paired (opening closing : Byte) (depth : Nat) : List Cell → Bool
  | [] => depth == 0
  | c :: cells =>
    if c.isCodeByte opening then paired opening closing (depth + 1) cells
    else if c.isCodeByte closing then 0 < depth && paired opening closing (depth - 1) cells
    else paired opening closing depth cells

theorem net_of_paired {depth : Nat} {cells : List Cell}
    (closed : paired Byte.openBrace Byte.closeBrace depth cells = true) :
    net cells = -depth ∧ ∀ k, -(depth : Int) ≤ net (cells.take k) := by
  induction cells generalizing depth with
  | nil =>
    obtain rfl : depth = 0 := by simpa [paired] using closed
    exact ⟨rfl, fun k => by simp⟩
  | cons c cells ih =>
    have step {depth' : Nat} (closed : paired Byte.openBrace Byte.closeBrace depth' cells = true)
        (weight : c.weight = depth' - depth) :
        net (c :: cells) = -depth ∧ ∀ k, -(depth : Int) ≤ net ((c :: cells).take k) := by
      obtain ⟨level, above⟩ := ih closed
      refine ⟨by rw [net_cons]; omega, fun k => ?_⟩
      cases k with
      | zero => simp
      | succ k =>
        have := above k
        rw [List.take_succ_cons, net_cons]
        omega
    unfold paired at closed
    split at closed
    next opens =>
      refine step closed ?_
      simp [weight, Scan.of?_of_opening opens, BraceKind.step_opening]
    next opens =>
    split at closed
    next closes =>
      rw [Bool.and_eq_true, decide_eq_true_eq] at closed
      refine step closed.2 ?_
      rw [weight_closing closes]
      omega
    next closes => exact step closed (by simp [weight, BraceKind.of?, opens, closes])

theorem balanced_of_paired {cells : List Cell}
    (closed : paired Byte.openBrace Byte.closeBrace 0 cells = true) : Balanced cells := by
  obtain ⟨level, above⟩ := net_of_paired closed
  exact ⟨level, fun k => by simpa using above k⟩

end Cell

/-- Two braces with balanced text between them are a block. -/
theorem Block.located_of_balanced {s : Scan} {opening : Nat} {inside : List Cell}
    (balanced : Cell.Balanced inside)
    (stands : ⟨Byte.openBrace, .code⟩ :: (inside ++ [⟨Byte.closeBrace, .code⟩]) <+: s.cells.drop opening) :
    Block.Located s ⟨opening, opening + 1 + inside.length, s.depthAt opening⟩ := by
  obtain ⟨rest, whole⟩ := stands
  have opens : s.cells[opening]? = some ⟨Byte.openBrace, .code⟩ := by
    rw [← List.head?_drop, ← whole]
    rfl
  have closes : s.cells[opening + 1 + inside.length]? = some ⟨Byte.closeBrace, .code⟩ := by
    rw [Nat.add_assoc, ← List.getElem?_drop, ← whole, Nat.add_comm 1]
    simp
  have start : s.depthAt (opening + 1) = s.depthAt opening + 1 := s.depthAt_succ opens
  have front {k : Nat} (upto : k ≤ inside.length) :
      s.depthAt (opening + 1 + k) = s.depthAt opening + 1 + Cell.net (inside.take k) := by
    have change := s.net_slice (Nat.le_add_right (opening + 1) k)
    have same : (Span.mk (opening + 1) (opening + 1 + k)).slice s.cells = inside.take k := by
      rw [Span.slice, Span.length, Nat.add_sub_cancel_left, ← List.drop_drop, ← whole]
      simp [List.take_append_of_le_length upto]
    rw [same] at change
    omega
  refine ⟨⟨_, opens, rfl⟩, ⟨_, closes, rfl⟩, by dsimp only; omega, rfl, fun offset after upto => ?_, ?_⟩
  · dsimp only at after upto ⊢
    have above := balanced.above (offset - (opening + 1))
    have here := @front (offset - (opening + 1)) (by omega)
    rw [Nat.add_sub_cancel' after] at here
    omega
  · have level := @front inside.length (Nat.le_refl _)
    rw [List.take_length, balanced.level] at level
    have last := s.depthAt_succ closes
    rw [level, Cell.weight_closing rfl] at last
    dsimp only
    omega

def StatementState.initializing : StatementState := ⟨0, true, true, some Byte.colon, 0⟩

/-- A part of a statement: a cell, or two parentheses or braces with all that stands between them. -/
inductive Item where
  | cell (c : Cell)
  | group (inside : List Cell)
  | block (inside : List Cell)
  deriving DecidableEq

namespace Item

def cells : Item → List Cell
  | cell c => [c]
  | group inside => ⟨Byte.openParen, .code⟩ :: (inside ++ [⟨Byte.closeParen, .code⟩])
  | block inside => ⟨Byte.openBrace, .code⟩ :: (inside ++ [⟨Byte.closeBrace, .code⟩])

/-- Whether the brackets of the item are in pairs. A cell is none of them, and ends no statement. -/
def formed : Item → Bool
  | cell c => c.isTrivia || !([Byte.openParen, Byte.closeParen, Byte.openBrace, Byte.closeBrace,
      Byte.semicolon].contains c.byte)
  | group inside => Cell.paired Byte.openParen Byte.closeParen 0 inside
  | block inside => Cell.paired Byte.openBrace Byte.closeBrace 0 inside

def isGroup : Item → Bool
  | group _ => true
  | _ => false

def isBlock : Item → Bool
  | block _ => true
  | _ => false

/-- Whether the item may stand in front of the initializers: it is no block, and no colon. -/
def inHead : Item → Bool
  | cell c => c.isTrivia || c.byte != Byte.colon
  | group _ => true
  | block _ => false

/-- Whether the last byte of code behind the item belongs to a name: it ends an identifier or a template
argument list. `before` says this of what stands in front of it. -/
def named (before : Bool) : Item → Bool
  | cell c => if c.isTrivia then before else Byte.isIdent c.byte || c.byte == Byte.greater
  | group _ => false
  | block _ => false

/-- Whether each block stands right behind an identifier or a template argument list. -/
def glued (before : Bool) : List Item → Bool
  | [] => true
  | item :: items => (!item.isBlock || before) && glued (item.named before) items

def after (st : StatementState) : Item → StatementState
  | cell c => if c.isTrivia then st else { st with last := some c.byte }
  | group _ => { st with parameters := true, last := some Byte.closeParen }
  | block _ => { st with last := some Byte.closeBrace }

/-- Whether a statement goes on over the item. A colon does not count among the initializers. -/
def passes (st : StatementState) : Item → Bool
  | cell c => c.isTrivia || c.byte != Byte.colon || st.initializers
  | group _ => true
  | block _ => st.opensInitializer

def text (items : List Item) : List Cell := items.flatMap Item.cells

def behind (st : StatementState) (items : List Item) : StatementState := items.foldl (fun st i => i.after st) st

def passesAll (st : StatementState) : List Item → Bool
  | [] => true
  | item :: items => item.passes st && passesAll (item.after st) items

def endsName (b : Byte) : Bool := Byte.isIdent b || b == Byte.greater

variable {st : StatementState} {item : Item} {items : List Item}

theorem text_append (first second : List Item) : text (first ++ second) = text first ++ text second :=
  List.flatMap_append

theorem after_fixed (st : StatementState) (item : Item) : (item.after st).parens = st.parens ∧
    (item.after st).resume = st.resume ∧ (item.after st).initializers = st.initializers := by
  cases item with
  | cell c =>
    rw [after]
    split <;> exact ⟨rfl, rfl, rfl⟩
  | group inside => exact ⟨rfl, rfl, rfl⟩
  | block inside => exact ⟨rfl, rfl, rfl⟩

theorem behind_fixed (st : StatementState) (items : List Item) : (behind st items).parens = st.parens ∧
    (behind st items).resume = st.resume ∧ (behind st items).initializers = st.initializers := by
  induction items generalizing st with
  | nil => exact ⟨rfl, rfl, rfl⟩
  | cons item items ih =>
    obtain ⟨parens, resume, initializers⟩ := ih (item.after st)
    obtain ⟨parens', resume', initializers'⟩ := after_fixed st item
    exact ⟨parens.trans parens', resume.trans resume', initializers.trans initializers'⟩

theorem behind_parameters (st : StatementState) (items : List Item) :
    (behind st items).parameters = (st.parameters || items.any isGroup) := by
  induction items generalizing st with
  | nil => simp [behind]
  | cons item items ih =>
    rw [behind, List.foldl_cons, ← behind, ih, List.any_cons, ← Bool.or_assoc]
    congr 1
    cases item with
    | cell c =>
      rw [after]
      split <;> simp [isGroup]
    | group inside => simp [after, isGroup]
    | block inside => simp [after, isGroup]

/-- No colon is the last byte of code in front of the initializers. -/
theorem behind_last_ne (head : ∀ item ∈ items, item.inHead = true) (other : st.last ≠ some Byte.colon) :
    (behind st items).last ≠ some Byte.colon := by
  induction items generalizing st with
  | nil => exact other
  | cons item items ih =>
    refine ih (fun i member => head i (.tail _ member)) (?_ : (item.after st).last ≠ _)
    cases item with
    | cell c =>
      have apart := head _ (.head _)
      rw [after]
      split
      next trivia => exact other
      next solid =>
        simp only [inHead, solid, Bool.false_or, bne_iff_ne] at apart
        exact fun same => apart (Option.some.inj same)
    | group inside => simp [after, Byte.closeParen, Byte.colon]
    | block inside => simp [after, Byte.closeBrace, Byte.colon]

theorem passesAll_of_inHead (head : ∀ item ∈ items, item.inHead = true) : passesAll st items = true := by
  induction items generalizing st with
  | nil => rfl
  | cons item items ih =>
    rw [passesAll, ih fun i member => head i (.tail _ member), Bool.and_true]
    have own := head _ (.head _)
    cases item with
    | cell c =>
      rw [passes, show (c.isTrivia || c.byte != Byte.colon) = true from own, Bool.true_or]
    | group inside => rfl
    | block inside => cases own

theorem after_named (st : StatementState) (item : Item) :
    (item.after st).last.any endsName = item.named (st.last.any endsName) := by
  cases item with
  | cell c =>
    rw [after, named]
    split <;> rfl
  | group inside => rfl
  | block inside => rfl

theorem behind_named (st : StatementState) (items : List Item) :
    (behind st items).last.any endsName = items.foldl named (st.last.any endsName) := by
  induction items generalizing st with
  | nil => rfl
  | cons item items ih => rw [behind, List.foldl_cons, ← behind, ih, after_named, List.foldl_cons]

/-- Among the initializers, a statement goes on over blocks that stand behind a name only. -/
theorem passesAll_eq_glued (begun : st.initializers = true) :
    passesAll st items = glued (st.last.any endsName) items := by
  induction items generalizing st with
  | nil => rfl
  | cons item items ih =>
    rw [passesAll, ih ((after_fixed st item).2.2.trans begun), after_named, glued]
    cases item with
    | cell c => rw [passes, begun, Bool.or_true]; rfl
    | group inside => rfl
    | block inside => rw [passes, StatementState.opensInitializer, begun, Bool.true_and]; rfl

theorem glued_append (before : Bool) (first second : List Item) :
    glued before (first ++ second) = (glued before first && glued (first.foldl named before) second) := by
  induction first generalizing before with
  | nil => rfl
  | cons item first ih => rw [List.cons_append, glued, glued, ih, Bool.and_assoc, List.foldl_cons]

theorem glued_trivia {cells : List Cell} (trivia : ∀ c ∈ cells, c.isTrivia = true) (before : Bool) :
    glued before (cells.map .cell) = true ∧ (cells.map .cell).foldl named before = before := by
  induction cells generalizing before with
  | nil => exact ⟨rfl, rfl⟩
  | cons c cells ih =>
    have same : (cell c).named before = before := by rw [named, if_pos (trivia c (.head _))]
    have rest := ih (fun d member => trivia d (.tail _ member)) before
    rw [List.map_cons, List.foldl_cons, same]
    exact ⟨by rw [glued, same, rest.1]; rfl, rest.2⟩

end Item

namespace Scan

variable {s : Scan} {st : StatementState} {at_ : Nat}

/-- A statement goes on through parentheses. -/
theorem statementEndFrom_paired {depth : Nat} {inside : List Cell}
    (closed : Cell.paired Byte.openParen Byte.closeParen depth inside = true)
    (deep : st.parens = depth + 1) (fresh : st.resume = 0) (rest : List Cell) :
    ∃ last, s.statementEndFrom st at_ (inside ++ rest) =
      s.statementEndFrom { st with parens := 1, last } (at_ + inside.length) rest := by
  induction inside generalizing st at_ depth with
  | nil =>
    obtain rfl : depth = 0 := by simpa [Cell.paired] using closed
    refine ⟨st.last, ?_⟩
    rw [show (1 : Int) = st.parens by omega]
    rfl
  | cons c inside ih =>
    rw [List.length_cons, Nat.add_comm inside.length, ← Nat.add_assoc, List.cons_append]
    unfold Cell.paired at closed
    by_cases trivia : c.isTrivia = true
    · rw [Cell.isCodeByte_of_trivia trivia rfl, Cell.isCodeByte_of_trivia trivia rfl] at closed
      rw [statementEndFrom_trivia trivia]
      exact ih closed deep fresh
    rw [Bool.not_eq_true] at trivia
    rw [Cell.isCodeByte_of_solid trivia, Cell.isCodeByte_of_solid trivia] at closed
    rw [statementEndFrom_byte (by omega) trivia (.inl (by omega))]
    have goesOn {parens : Int} {depth' : Nat} {last : Option Byte}
        (closed : Cell.paired Byte.openParen Byte.closeParen depth' inside = true)
        (deep : parens = depth' + 1) :
        ∃ later, s.statementEndFrom { st with parens, last } (at_ + 1) (inside ++ rest) =
          s.statementEndFrom { st with parens := 1, last := later } (at_ + 1 + inside.length) rest :=
      @ih { st with parens, last } _ _ closed deep fresh
    unfold StatementState.after
    split
    next opens =>
      rw [opens] at closed
      exact goesOn closed (by omega)
    next opens =>
    split
    next closes =>
      rw [closes, if_neg (by decide), if_pos (by decide), Bool.and_eq_true, decide_eq_true_eq] at closed
      obtain ⟨inner, closed⟩ := closed
      rw [show (st.parameters || st.parens - 1 == 0) = st.parameters by
        rw [beq_eq_false_iff_ne.mpr (by omega), Bool.or_false]]
      exact goesOn closed (by omega)
    next closes =>
    rw [if_neg (by simpa using opens), if_neg (by simpa using closes)] at closed
    rw [if_neg (by omega)]
    exact goesOn closed deep

theorem statementEndFrom_item {item : Item} (formed : item.formed = true) (passes : item.passes st = true)
    (level : st.parens = 0) (fresh : st.resume = 0) (rest : List Cell)
    (stands : item.cells ++ rest <+: s.cells.drop at_) :
    s.statementEndFrom st at_ (item.cells ++ rest) =
      s.statementEndFrom (item.after st) (at_ + item.cells.length) rest := by
  obtain ⟨parens, parameters, initializers, last, resume⟩ := st
  dsimp only at level fresh
  subst level fresh
  cases item with
  | cell c =>
    rw [Item.cells, List.singleton_append, List.length_singleton, Item.after]
    split
    next trivia => exact statementEndFrom_trivia trivia rest
    next solid =>
      simp only [Item.formed, solid, Bool.false_or, Bool.not_eq_true', List.contains_eq_mem,
        decide_eq_false_iff_not, List.mem_cons, List.not_mem_nil, or_false, not_or] at formed
      obtain ⟨noOpening, noClosing, noBrace, -, noSemicolon⟩ := formed
      simp only [Item.passes, solid, Bool.false_or, Bool.or_eq_true, bne_iff_ne] at passes
      rw [statementEndFrom_byte (Nat.zero_le _) (by simpa using solid) (.inr ⟨noSemicolon, noBrace⟩),
        StatementState.after, if_neg noOpening, if_neg noClosing]
      split
      next colon =>
        have begun : initializers = true := passes.resolve_left (· colon.1)
        simp [begun]
      next => rfl
  | group inside =>
    have length : at_ + (Item.group inside).cells.length = at_ + 1 + inside.length + 1 := by
      simp only [Item.cells, List.length_cons, List.length_append, List.length_nil]
      omega
    obtain ⟨last', inner⟩ := @statementEndFrom_paired s ⟨1, parameters, initializers, some Byte.openParen, 0⟩
      (at_ + 1) 0 inside formed rfl rfl (⟨Byte.closeParen, .code⟩ :: rest)
    rw [length, Item.cells, List.cons_append, List.append_assoc, List.singleton_append,
      statementEndFrom_byte (Nat.zero_le _) rfl (.inr ⟨by decide, by decide⟩)]
    refine inner.trans ((statementEndFrom_byte (Nat.zero_le _) rfl (.inl Int.one_ne_zero) rest).trans ?_)
    rw [StatementState.after, if_neg (by decide), if_pos rfl]
    simp [Item.after]
  | block inside =>
    have length : at_ + (Item.block inside).cells.length = at_ + 1 + inside.length + 1 := by
      simp only [Item.cells, List.length_cons, List.length_append, List.length_nil]
      omega
    have located : s.locateBlock at_ = .ok ⟨at_, at_ + 1 + inside.length, s.depthAt at_⟩ :=
      (Block.located_of_balanced (Cell.balanced_of_paired formed)
        ((List.prefix_append _ _).trans stands)).locateBlock
    rw [length, Item.cells, List.cons_append, statementEndFrom_initializer (Nat.zero_le _) rfl rfl passes located
      (by dsimp only; omega)]
    dsimp only
    rw [show at_ + 1 + inside.length - at_ = (inside ++ [(⟨Byte.closeBrace, .code⟩ : Cell)]).length by
      rw [List.length_append, List.length_singleton]; omega, List.drop_left]
    rfl

theorem prefix_behind {front rest : List Cell} (stands : front ++ rest <+: s.cells.drop at_) :
    rest <+: s.cells.drop (at_ + front.length) := by
  obtain ⟨more, whole⟩ := stands
  refine ⟨more, ?_⟩
  rw [← List.drop_drop, ← whole, List.append_assoc, List.drop_left]

theorem statementEndFrom_items {items : List Item} (formed : ∀ item ∈ items, item.formed = true)
    (passes : Item.passesAll st items = true) (level : st.parens = 0) (fresh : st.resume = 0)
    (rest : List Cell) (stands : Item.text items ++ rest <+: s.cells.drop at_) :
    s.statementEndFrom st at_ (Item.text items ++ rest) =
      s.statementEndFrom (Item.behind st items) (at_ + (Item.text items).length) rest := by
  induction items generalizing st at_ with
  | nil => rfl
  | cons item items ih =>
    rw [Item.passesAll, Bool.and_eq_true] at passes
    have parts : Item.text (item :: items) = item.cells ++ Item.text items := List.flatMap_cons
    rw [parts, List.append_assoc] at stands ⊢
    obtain ⟨parens, resume, -⟩ := Item.after_fixed st item
    rw [statementEndFrom_item (formed item (.head _)) passes.1 level fresh _ stands,
      ih (fun i member => formed i (.tail _ member)) passes.2 (parens.trans level) (resume.trans fresh) ?_,
      List.length_append, Nat.add_assoc]
    · rfl
    · exact prefix_behind stands

/-- A block among the initializers that does not stand behind a name ends the statement. -/
theorem statementEndFrom_stuck {items : List Item} (formed : ∀ item ∈ items, item.formed = true)
    (stuck : Item.passesAll st items = false) (begun : st.initializers = true) (level : st.parens = 0)
    (fresh : st.resume = 0) (rest : List Cell) (stands : Item.text items ++ rest <+: s.cells.drop at_) :
    ∃ opening, opening < at_ + (Item.text items).length ∧
      s.statementEndFrom st at_ (Item.text items ++ rest) = .ok (some (.body opening)) := by
  induction items generalizing st at_ with
  | nil => cases stuck
  | cons item items ih =>
    have parts : Item.text (item :: items) = item.cells ++ Item.text items := List.flatMap_cons
    rw [parts, List.append_assoc] at stands
    rw [parts, List.append_assoc, List.length_append, ← Nat.add_assoc]
    obtain ⟨parens, resume, initializers⟩ := Item.after_fixed st item
    cases passes : item.passes st with
    | true =>
      rw [Item.passesAll, passes, Bool.true_and] at stuck
      rw [statementEndFrom_item (formed item (.head _)) passes level fresh _ stands]
      exact ih (fun i member => formed i (.tail _ member)) stuck (initializers.trans begun)
        (parens.trans level) (resume.trans fresh) (prefix_behind stands)
    | false =>
      cases item with
      | cell c => simp [Item.passes, begun] at passes
      | group inside => cases passes
      | block inside =>
        refine ⟨at_, by simp only [Item.cells, List.length_cons]; omega, ?_⟩
        exact statementEndFrom_body (by omega) rfl level passes _

end Scan

/-- An initializer of a constructor: a name, which may be qualified or have template arguments, then
parentheses or braces, then comments, literals and blanks. -/
structure Initializer where
  name : List Item
  argument : Item
  behind : List Cell

namespace Initializer

def items (i : Initializer) : List Item := i.name ++ i.argument :: i.behind.map .cell

structure Formed (i : Initializer) : Prop where
  name : ∀ item ∈ i.name, item.formed = true
  named : i.name.foldl Item.named false = true
  argument : i.argument.formed = true
  bracket : (i.argument.isGroup || i.argument.isBlock) = true
  behind : ∀ c ∈ i.behind, c.isTrivia = true

instance (i : Initializer) : Decidable i.Formed :=
  decidable_of_iff ((∀ item ∈ i.name, item.formed = true) ∧ i.name.foldl Item.named false = true ∧
    i.argument.formed = true ∧ (i.argument.isGroup || i.argument.isBlock) = true ∧
    ∀ c ∈ i.behind, c.isTrivia = true)
    ⟨fun ⟨name, named, argument, bracket, behind⟩ => ⟨name, named, argument, bracket, behind⟩,
      fun ⟨name, named, argument, bracket, behind⟩ => ⟨name, named, argument, bracket, behind⟩⟩

variable {i : Initializer}

theorem Formed.items (formed : i.Formed) : ∀ item ∈ i.items, item.formed = true := by
  intro item member
  rcases List.mem_append.mp member with name | member
  · exact formed.name item name
  rcases List.mem_cons.mp member with rfl | behind
  · exact formed.argument
  · obtain ⟨c, among, rfl⟩ := List.mem_map.mp behind
    simp [Item.formed, formed.behind c among]

/-- The argument of an initializer always stands behind a name, and none does so behind it. -/
theorem Formed.glued_items (formed : i.Formed) : Item.glued false i.items = Item.glued false i.name ∧
    i.items.foldl Item.named false = false := by
  obtain ⟨trivia, kept⟩ := Item.glued_trivia formed.behind false
  have bracket := formed.bracket
  rw [Initializer.items, Item.glued_append, List.foldl_append, formed.named]
  cases argument : i.argument with
  | cell c =>
    rw [argument] at bracket
    cases bracket
  | group inside => exact ⟨by rw [Item.glued, Item.named, trivia]; simp, kept⟩
  | block inside => exact ⟨by rw [Item.glued, Item.named, trivia]; simp, kept⟩

end Initializer

structure Constructor where
  head : List Item
  first : Initializer
  further : List Initializer
  inside : List Cell

namespace Constructor

def initializers (c : Constructor) : List Initializer := c.first :: c.further

def items (c : Constructor) : List Item :=
  c.first.items ++ c.further.flatMap fun i => .cell ⟨Byte.comma, .code⟩ :: i.items

def front (c : Constructor) : List Cell := Item.text c.head ++ ⟨Byte.colon, .code⟩ :: Item.text c.items

def cells (c : Constructor) : List Cell := c.front ++ (Item.block c.inside).cells

def body (c : Constructor) (s : Scan) (start : Nat) : Block :=
  ⟨start + c.front.length, start + c.front.length + 1 + c.inside.length, s.depthAt (start + c.front.length)⟩

structure Formed (c : Constructor) : Prop where
  begins : ∃ cell ∈ c.cells.head?, cell.isTrivia = false ∧ cell.byte ≠ Byte.hash
  head : ∀ item ∈ c.head, item.formed = true ∧ item.inHead = true
  parameters : c.head.any Item.isGroup = true
  single : (Item.text c.items).head?.map Cell.byte ≠ some Byte.colon
  initializers : ∀ i ∈ c.initializers, i.Formed
  inside : Cell.paired Byte.openBrace Byte.closeBrace 0 c.inside = true

instance (c : Constructor) : Decidable c.Formed :=
  decidable_of_iff ((∃ cell ∈ c.cells.head?, cell.isTrivia = false ∧ cell.byte ≠ Byte.hash) ∧
    (∀ item ∈ c.head, item.formed = true ∧ item.inHead = true) ∧ c.head.any Item.isGroup = true ∧
    (Item.text c.items).head?.map Cell.byte ≠ some Byte.colon ∧ (∀ i ∈ c.initializers, i.Formed) ∧
    Cell.paired Byte.openBrace Byte.closeBrace 0 c.inside = true)
    ⟨fun ⟨begins, head, parameters, single, initializers, inside⟩ =>
      ⟨begins, head, parameters, single, initializers, inside⟩,
      fun ⟨begins, head, parameters, single, initializers, inside⟩ =>
      ⟨begins, head, parameters, single, initializers, inside⟩⟩

/-- Whether each brace in the name of an initializer, outside parentheses and other braces, stands right
behind an identifier or a template argument list. -/
def Glued (c : Constructor) : Prop := ∀ i ∈ c.initializers, Item.glued false i.name = true

instance (c : Constructor) : Decidable c.Glued :=
  inferInstanceAs (Decidable (∀ i ∈ c.initializers, Item.glued false i.name = true))

variable {c : Constructor}

theorem Formed.items (formed : c.Formed) : ∀ item ∈ c.items, item.formed = true := by
  intro item member
  rcases List.mem_append.mp member with first | further
  · exact (formed.initializers _ (.head _)).items item first
  · obtain ⟨i, among, member⟩ := List.mem_flatMap.mp further
    rcases List.mem_cons.mp member with rfl | member
    · rfl
    · exact (formed.initializers i (.tail _ among)).items item member

/-- All braces among the initializers stand behind names if those in the names do. -/
theorem Formed.glued_items (formed : c.Formed) : (Item.glued false c.items = true ↔ c.Glued) ∧
    c.items.foldl Item.named false = false := by
  have rest {further : List Initializer} (formed : ∀ i ∈ further, i.Formed) :
      let items := further.flatMap fun i => Item.cell ⟨Byte.comma, .code⟩ :: i.items
      (Item.glued false items = true ↔ ∀ i ∈ further, Item.glued false i.name = true) ∧
        items.foldl Item.named false = false := by
    induction further with
    | nil => simp [Item.glued]
    | cons i further ih =>
      obtain ⟨glued, named⟩ := (formed i (.head _)).glued_items
      obtain ⟨glued', named'⟩ := ih fun j member => formed j (.tail _ member)
      have comma : (Item.cell ⟨Byte.comma, .code⟩).named false = false := rfl
      have noBlock : (Item.cell ⟨Byte.comma, .code⟩).isBlock = false := rfl
      dsimp only at glued' named' ⊢
      rw [List.flatMap_cons, Item.glued_append, List.foldl_append, List.foldl_cons, comma, named]
      refine ⟨?_, named'⟩
      rw [Item.glued, comma, noBlock, Bool.not_false, Bool.true_or, Bool.true_and, glued, Bool.and_eq_true,
        glued', List.forall_mem_cons]
  obtain ⟨glued, named⟩ := (formed.initializers _ (.head _)).glued_items
  obtain ⟨glued', named'⟩ := rest fun i member => formed.initializers i (.tail _ member)
  rw [Constructor.items, Item.glued_append, List.foldl_append, named]
  refine ⟨?_, named'⟩
  rw [Bool.and_eq_true, glued, glued', Glued, Constructor.initializers, List.forall_mem_cons]

theorem text_items_ne_nil (c : Constructor) : Item.text c.items ≠ [] := by
  have member : c.first.argument ∈ c.items :=
    List.mem_append_left _ (List.mem_append_right _ (.head _))
  intro empty
  have none := List.flatMap_eq_nil_iff.mp empty _ member
  cases argument : c.first.argument <;> simp [argument, Item.cells] at none

/-- A statement comes to the initializers behind the colon of a constructor. -/
theorem Formed.statementEndFrom_head (formed : c.Formed) {s : Scan} {start : Nat} {rest : List Cell}
    (stands : c.front ++ rest <+: s.cells.drop start) :
    s.statementEnd start (c.front ++ rest) =
      s.statementEndFrom .initializing (start + (Item.text c.head).length + 1)
        (Item.text c.items ++ rest) := by
  have head := fun item member => (formed.head item member).2
  obtain ⟨level, fresh, begun⟩ := Item.behind_fixed {} c.head
  have parameters := Item.behind_parameters {} c.head
  have last : (Item.behind {} c.head).last ≠ some Byte.colon := Item.behind_last_ne head (by decide)
  rw [front, List.append_assoc] at stands ⊢
  rw [Scan.statementEnd, Scan.statementEndFrom_items (fun item member => (formed.head item member).1)
    (Item.passesAll_of_inHead head) rfl rfl _ stands, List.cons_append,
    Scan.statementEndFrom_byte (by rw [fresh]; exact Nat.zero_le _) rfl (.inr ⟨by decide, by decide⟩)]
  obtain ⟨d, more, items⟩ := List.exists_cons_of_ne_nil c.text_items_ne_nil
  have single := formed.single
  have next : ((Item.text c.items ++ rest).head?.map Cell.byte) ≠ some Byte.colon := by
    rw [items] at single ⊢
    exact single
  have begins : (Item.behind {} c.head).after Byte.colon ((Item.text c.items ++ rest).head?.map Cell.byte) =
      .initializing := by
    rw [formed.parameters, Bool.or_true] at parameters
    rw [StatementState.after, if_neg (by decide), if_neg (by decide), if_pos ⟨rfl, level, parameters⟩,
      beq_eq_false_iff_ne.mpr last, beq_eq_false_iff_ne.mpr next, level, parameters, fresh]
    simp [StatementState.initializing]
  rw [begins]

/-- The statement of a constructor ends at its body if, and only if, all braces in the names of its
initializers stand behind names. -/
theorem Formed.statementEnd_iff (formed : c.Formed) {s : Scan} {start stop : Nat}
    (stands : c.cells <+: s.cells.drop start) (upto : start + c.cells.length ≤ stop) :
    s.statementEnd start ((Span.mk start stop).slice s.cells) =
      .ok (some (.body (start + c.front.length))) ↔ c.Glued := by
  obtain ⟨rest, whole⟩ := stands
  have text : (Span.mk start stop).slice s.cells =
      c.front ++ ((Item.block c.inside).cells ++ rest.take (stop - start - c.cells.length)) := by
    rw [Span.slice, Span.length, ← whole, List.take_append,
      List.take_of_length_le (show c.cells.length ≤ stop - start by omega), cells, List.append_assoc]
  have stands : c.front ++ ((Item.block c.inside).cells ++ rest.take (stop - start - c.cells.length)) <+:
      s.cells.drop start := by
    rw [← text, Span.slice]
    exact List.take_prefix _ _
  generalize rest.take (stop - start - c.cells.length) = rest at text stands
  obtain ⟨glued, named⟩ := formed.glued_items
  have place : start + (Item.text c.head).length + 1 + (Item.text c.items).length = start + c.front.length := by
    simp only [front, List.length_append, List.length_cons]
    omega
  have behind : Item.text c.items ++ ((Item.block c.inside).cells ++ rest) <+:
      s.cells.drop (start + (Item.text c.head).length + 1) := by
    have parts := stands
    rw [front, List.append_assoc, List.cons_append, ← List.singleton_append, ← List.append_assoc] at parts
    have inner := Scan.prefix_behind parts
    rwa [List.length_append, List.length_singleton, ← Nat.add_assoc] at inner
  rw [text, formed.statementEndFrom_head stands]
  have passes : Item.passesAll .initializing c.items = Item.glued false c.items := Item.passesAll_eq_glued rfl
  cases all : Item.glued false c.items with
  | true =>
    rw [Scan.statementEndFrom_items formed.items (passes.trans all) rfl rfl _ behind, place]
    obtain ⟨level, fresh, begun⟩ := Item.behind_fixed .initializing c.items
    have last := Item.behind_named .initializing c.items
    rw [show StatementState.initializing.last.any Item.endsName = false from rfl, named] at last
    have other : (Item.behind .initializing c.items).opensInitializer = false := by
      rw [StatementState.opensInitializer, begun]
      exact last
    rw [Item.cells, List.cons_append, Scan.statementEndFrom_body (by rw [fresh]; exact Nat.zero_le _) rfl level other]
    exact ⟨fun _ => glued.mp all, fun _ => rfl⟩
  | false =>
    obtain ⟨opening, before, ended⟩ :=
      Scan.statementEndFrom_stuck formed.items (passes.trans all) rfl rfl rfl _ behind
    rw [ended, ← glued, all]
    refine ⟨fun same => ?_, fun same => by cases same⟩
    cases same
    omega

/-- No label stands where a constructor begins: its parentheses come before its colon. -/
theorem Formed.unlabelled (formed : c.Formed) {s : Scan} {block : Block} (valid : block.Located s) {start : Nat}
    (stands : c.cells <+: s.cells.drop start) :
    (Sectioning.markersOf s block).find? (·.span.start == start) = none := by
  obtain ⟨item, first⟩ := Option.isSome_iff_exists.mp (List.find?_isSome.mpr
    (List.any_eq_true.mp formed.parameters))
  obtain ⟨group, before, after, head, ahead⟩ := List.find?_eq_some_iff_append.mp first
  obtain ⟨inside, rfl⟩ : ∃ inside, item = .group inside := by
    cases item with
    | group inside => exact ⟨inside, rfl⟩
    | cell d => cases group
    | block inside => cases group
  obtain ⟨more, whole⟩ : ∃ more, s.cells.drop start = Item.text before ++ ⟨Byte.openParen, .code⟩ :: more := by
    obtain ⟨rest, whole⟩ := stands
    rw [← whole, cells, front, head, Item.text_append]
    exact ⟨inside ++ ⟨Byte.closeParen, .code⟩ :: (Item.text after ++ ⟨Byte.colon, .code⟩ ::
      (Item.text c.items ++ ((Item.block c.inside).cells ++ rest))), by simp [Item.text, Item.cells]⟩
  have cell (i : Nat) : s.cells[start + i]? = (Item.text before ++ ⟨Byte.openParen, .code⟩ :: more)[i]? := by
    rw [← whole, List.getElem?_drop]
  have opens : s.cells[start + (Item.text before).length]? = some ⟨Byte.openParen, .code⟩ := by
    rw [cell, List.getElem?_append_right (Nat.le_refl _), Nat.sub_self]
    rfl
  have noColon : ∀ d ∈ Item.text before, d.isCodeByte Byte.colon = false := by
    intro d among
    obtain ⟨item, member, own⟩ := List.mem_flatMap.mp among
    have inHead := (formed.head item (head ▸ List.mem_append_left _ member)).2
    have alone := ahead item member
    cases item with
    | cell c =>
      obtain rfl := List.mem_singleton.mp own
      rw [Item.inHead, Bool.or_eq_true, bne_iff_ne] at inHead
      rcases inHead with trivia | other
      · exact Cell.isCodeByte_of_trivia trivia rfl
      · rw [Cell.isCodeByte, beq_eq_false_iff_ne.mpr other, Bool.false_and]
    | group inside => cases alone
    | block inside => cases inHead
  rw [List.find?_eq_none]
  intro m member same
  have same : m.span.start = start := by simpa using same
  have inside := Sectioning.inside_of_mem_markersOf valid member
  have ordered := inside.ordered
  have upto : m.span.stop ≤ start + (Item.text before).length := by
    by_contra beyond
    obtain ⟨d, here, spelled⟩ := Sectioning.spelled_of_mem_markersOf valid member
      (show m.span.start ≤ start + (Item.text before).length by omega) (by omega)
    obtain rfl := Option.some.inj (opens.symm.trans here)
    revert spelled
    decide
  obtain ⟨d, last, colon, code⟩ := inside.last
  have place : m.span.stop - 1 = start + (m.span.stop - 1 - start) := by omega
  rw [place, cell, List.getElem?_append_left (by omega)] at last
  have other := noColon d (List.mem_of_getElem? last)
  simp [Cell.isCodeByte, colon, code] at other

theorem Formed.located_body (formed : c.Formed) {s : Scan} {start : Nat} (stands : c.cells <+: s.cells.drop start) :
    (c.body s start).Located s :=
  Block.located_of_balanced (Cell.balanced_of_paired formed.inside) (Scan.prefix_behind stands)

def callable? (c : Constructor) (s : Scan) (start : Nat) : Option Callable :=
  Extraction.callable? start (c.body s start).opening (s.cells.drop start) (c.body s start)

/-- The definition of a constructor with initializers, wherever it stands, is one statement that ends with
the brace of its body, if all braces in the names of the initializers stand behind names, and only then. A
walk that comes to the constructor then goes on right behind the closing brace of the body. -/
theorem stepped_over (formed : c.Formed) {s : Scan} {start : Nat} (stands : c.cells <+: s.cells.drop start) :
    (∀ stop, start + c.cells.length ≤ stop → (s.statementEnd start ((Span.mk start stop).slice s.cells) =
      .ok (some (.body (c.body s start).opening)) ↔ c.Glued)) ∧
    (c.Glued → ∀ block, block.Located s → ∀ part ∈ (Sectioning.of s block).sections,
      start + c.cells.length ≤ part.span.stop → ∀ found,
      Extraction.Reached s (Sectioning.of s block).markers part.span.start start found →
      (c.body s start).closing + 1 = start + c.cells.length ∧
      Extraction.callables s (Sectioning.of s block).markers part = (Extraction.callablesAfter s
        (Sectioning.of s block).markers part.span.stop ((c.body s start).closing + 1)).map
          (found ++ (c.callable? s start).toList ++ ·)) := by
  refine ⟨fun stop upto => formed.statementEnd_iff stands upto, ?_⟩
  intro glued block valid part member upto found reached
  have inside := Sectioning.inside_of_mem_sections valid member
  have short : part.span.stop ≤ s.length :=
    Nat.le_trans inside.upper (Nat.le_of_lt valid.closing_lt_length)
  obtain ⟨cell, first, solid, statement⟩ := formed.begins
  have here : s.cells[start]? = some cell := by
    obtain ⟨rest, whole⟩ := stands
    rw [← List.head?_drop, ← whole, List.head?_append, first]
    rfl
  have ends := ((Scan.statementEnd_eq_some_iff short).mp ((formed.statementEnd_iff stands upto).mpr glued)).1
  have goesOn := reached.body ⟨here, solid, formed.unlabelled valid stands, statement⟩ ends
    (formed.located_body stands).locateBlock
  have last : (c.body s start).closing + 1 = start + c.cells.length := by
    simp only [body, cells, Item.cells, List.length_append, List.length_cons, List.length_nil]
    omega
  exact ⟨last, goesOn.callablesAfter (Nat.le_trans (Nat.le_of_eq last) upto) short⟩

theorem stepped_over_small :
    let source := utf8 "class M \x7b M(int n) : B<T<int>>(n), a\x7bn\x7d \x7b \x7d int f() \x7b return a; \x7d \x7d;"
    let code (text : String) : List Cell := Cell.uniform .code (utf8 text)
    let c : Constructor := ⟨(code "M").map .cell ++ .group (code "int n") :: (code " ").map .cell,
      ⟨(code " B<T<int>>").map .cell, .group (code "n"), []⟩,
      [⟨(code " a").map .cell, .block (code "n"), code " "⟩], code " "⟩
    ∃ s block, Scan.of source = .ok s ∧ s.locateBlock 8 = .ok block ∧
      ∃ part ∈ (Sectioning.of s block).sections,
        s.statementEnd 10 ((Span.mk 10 part.span.stop).slice s.cells) = .ok (some (.body 40)) ∧
        Extraction.callables s (Sectioning.of s block).markers part = (Extraction.callablesAfter s
          (Sectioning.of s block).markers part.span.stop 43).map ((c.callable? s 10).toList ++ ·) := by
  intro source code c
  have formed : c.Formed := by decide +kernel
  have glued : c.Glued := by decide +kernel
  have succeeds : ((Scan.of source).bind fun s => (s.locateBlock 8).map fun _ => ()) = .ok () := by decide +kernel
  have shape : ∀ s ∈ (Scan.of source).toOption, ∀ block ∈ (s.locateBlock 8).toOption,
      c.cells <+: s.cells.drop 10 ∧ s.cells[9]? = some ⟨Byte.space, .code⟩ ∧
        ∃ part ∈ (Sectioning.of s block).sections, part.span.start = 9 ∧ 10 + c.cells.length ≤ part.span.stop := by
    decide +kernel
  obtain ⟨s, scanned, succeeds⟩ := Except.of_bind_eq_ok succeeds
  obtain ⟨block, located, _⟩ := Except.of_map_eq_ok succeeds
  obtain ⟨stands, blank, part, member, begins, upto⟩ := shape s (by rw [scanned]; rfl) block (by rw [located]; rfl)
  have place : (c.body s 10).opening = 40 ∧ (c.body s 10).closing + 1 = 43 := by
    have front : c.front.length = 30 ∧ c.inside.length = 1 := by decide +kernel
    rw [body, front.1, front.2]
    exact ⟨rfl, rfl⟩
  have reached : Extraction.Reached s (Sectioning.of s block).markers part.span.start 10 [] := by
    rw [begins]
    exact .trivia .start blank rfl
  obtain ⟨ends, goesOn⟩ := stepped_over formed stands
  have ended := (ends part.span.stop upto).mpr glued
  have found := (goesOn glued block (Scan.located_of_locateBlock located).1 part member upto [] reached).2
  rw [place.1] at ended
  rw [place.2, List.nil_append] at found
  exact ⟨s, block, scanned, located, part, member, ended, found⟩

/-- A brace in template arguments that stands behind no name is taken for the body. -/
theorem ended_early :
    let source := utf8 "class M \x7b M() : B<[]\x7b return 1; \x7d>(0) \x7b\x7d \x7d;"
    let code (text : String) : List Cell := Cell.uniform .code (utf8 text)
    let c : Constructor := ⟨(code "M").map .cell ++ .group [] :: (code " ").map .cell,
      ⟨(code " B<[]").map .cell ++ .block (code " return 1; ") :: (code ">").map .cell,
        .group (code "0"), code " "⟩, [], []⟩
    c.Formed ∧ ∃ s, Scan.of source = .ok s ∧ c.cells <+: s.cells.drop 10 ∧
      s.statementEnd 10 ((Span.mk 10 (10 + c.cells.length)).slice s.cells) = .ok (some (.body 20)) ∧
      (c.body s 10).opening = 38 := by
  intro source code c
  have formed : c.Formed := by decide +kernel
  have succeeds : ((Scan.of source).map fun _ => ()) = .ok () := by decide +kernel
  have shape : ∀ s ∈ (Scan.of source).toOption, c.cells <+: s.cells.drop 10 ∧
      (s.statementEnd 10 ((Span.mk 10 (10 + c.cells.length)).slice s.cells)).toOption =
        some (some (.body 20)) := by decide +kernel
  have front : c.front.length = 28 := by decide +kernel
  obtain ⟨s, scanned, _⟩ := Except.of_map_eq_ok succeeds
  obtain ⟨stands, ended⟩ := shape s (by rw [scanned]; rfl)
  refine ⟨formed, s, scanned, stands, ?_, by rw [body, front]⟩
  cases known : s.statementEnd 10 ((Span.mk 10 (10 + c.cells.length)).slice s.cells) with
  | error e =>
    rw [known] at ended
    cases ended
  | ok e =>
    rw [known] at ended
    exact congrArg Except.ok (Option.some.inj ended)

end Constructor
end OutOfLine
