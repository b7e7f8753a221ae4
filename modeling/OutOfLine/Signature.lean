import OutOfLine.Member

/-! The edits that move the signature of a member function out of its class. They are stated
against the offsets of the signature before any of them is made. -/

namespace OutOfLine

structure Splice where
  span : Span
  text : Bytes
  deriving DecidableEq, Repr

namespace Splice

def remove (start stop : Nat) : Splice := ⟨⟨start, stop⟩, []⟩

def insert (at_ : Nat) (text : Bytes) : Splice := ⟨⟨at_, at_⟩, text⟩

def cells (splice : Splice) : List Cell := splice.text.map (⟨·, .code⟩)

/-- The effect of splices in the order of their starts on the part of `source` from `at_` on. A splice
that starts inside a replaced part is left out. -/
def applyFrom (source : List Cell) (at_ : Nat) : List Splice → List Cell
  | [] => source.drop at_
  | splice :: splices =>
    if splice.span.start < at_ then applyFrom source at_ splices
    else
      (Span.mk at_ splice.span.start).slice source ++ splice.cells ++
        applyFrom source splice.span.stop splices

/-- The effect of some splices on `source`. Those with the same start are tried in the order of their
ends. -/
def apply (source : List Cell) (splices : List Splice) : List Cell :=
  applyFrom source 0 (splices.mergeSort fun a b => !b.span.precedes a.span)

end Splice

structure Signature where
  cells : List Cell
  name : Span
  parameters : Option Span

namespace Signature

def closingFrom? (depth : Int) (at_ : Nat) : List Cell → Option Nat
  | [] => none
  | c :: cells =>
    let depth :=
      if c.isCodeByte Byte.openParen then depth + 1
      else if c.isCodeByte Byte.closeParen then depth - 1 else depth
    if c.isCode && depth == 0 then some at_ else closingFrom? depth (at_ + 1) cells

/-- The parameter list of a signature: the first parenthesis after the name and the one that closes it. -/
def parameters? (cells : List Cell) (name : Span) : Option Span := do
  let distance ← (cells.drop name.stop).findIdx? (·.isCodeByte Byte.openParen)
  let opening := name.stop + distance
  let closing ← closingFrom? 0 opening (cells.drop opening)
  return ⟨opening, closing + 1⟩

def of (s : Scan) (c : Callable) : Signature :=
  let cells := c.signature.slice s.cells
  let name : Span := ⟨c.name.start - c.signature.start, c.name.stop - c.signature.start⟩
  ⟨cells, name, parameters? cells name⟩

def length (sig : Signature) : Nat := sig.cells.length

def inParameters (sig : Signature) (offset : Nat) : Bool := sig.parameters.any (·.contains offset)

/-- Whether a line comment would swallow what is put on the same line after the signature. -/
def endsInLineComment (sig : Signature) : Bool :=
  sig.cells.getLast?.any (·.cls == .lineComment)

/-- The offsets in cells at `at_`, which follow the byte `before`, where the whole word `word` begins
in code position. -/
def wordsFrom (word : Bytes) (at_ : Nat) (before : Option Byte) : List Cell → List Nat
  | [] => []
  | c :: cells =>
    let text := c.byte :: Cell.bytes (cells.take word.length)
    let rest := wordsFrom word (at_ + 1) (some c.byte) cells
    if word.isPrefixOf text && c.isCode && !before.any Byte.isIdent &&
        Bytes.atWordEnd (text.drop word.length)
    then at_ :: rest else rest

def words (sig : Signature) (word : Bytes) (start stop : Nat) : List Nat :=
  if word = [] then []
  else (wordsFrom word 0 none sig.cells).filter fun at_ => start ≤ at_ && at_ + word.length ≤ stop

def wordRemoval (sig : Signature) (at_ length : Nat) : Splice :=
  let blanks := (sig.cells.drop (at_ + length)).takeWhile (Byte.isInlineBlank ·.byte)
  .remove at_ (at_ + length + blanks.length)

/-- The removals of the words `markers`. They stay in the parameter list, and the name of the function
is never one of them. -/
def markerRemovals (sig : Signature) (markers : List Bytes) : List Splice :=
  markers.flatMap fun marker =>
    ((sig.words marker 0 sig.length).filter fun at_ =>
      !sig.inParameters at_ && at_ != sig.name.start).map (sig.wordRemoval · marker.length)

def arrowFrom? (at_ : Nat) : List Cell → Option Nat
  | c :: d :: cells =>
    if c.isCodeByte Byte.minus && d.byte == Byte.greater then some at_
    else arrowFrom? (at_ + 1) (d :: cells)
  | _ => none

/-- The removals of `const` between the parameter list and a trailing return type, which a free
function cannot carry. -/
def constRemovals (sig : Signature) : List Splice :=
  match sig.parameters with
  | none => []
  | some parameters =>
    let stop := (arrowFrom? parameters.stop (sig.cells.drop parameters.stop)).getD sig.length
    (sig.words (utf8 "const") parameters.stop stop).map
      (sig.wordRemoval · (utf8 "const").length)

def closingAngleFrom? (angle : Int) (at_ : Nat) : List Cell → Option Nat
  | [] => none
  | c :: cells =>
    if c.isCodeByte Byte.less then
      if angle + 1 = 0 then some at_ else closingAngleFrom? (angle + 1) (at_ + 1) cells
    else if c.isCodeByte Byte.greater then
      if angle - 1 = 0 then some at_ else closingAngleFrom? (angle - 1) (at_ + 1) cells
    else closingAngleFrom? angle (at_ + 1) cells

def aheadOfName (sig : Signature) : List Cell := sig.cells.take sig.name.start

/-- Where a qualifier goes: in front of the signature, or past the parameters of a template. -/
def qualifierPlace? (sig : Signature) : Option Nat :=
  let ahead := sig.aheadOfName
  if (utf8 "template").isPrefixOf (Cell.views ahead) then do
    let closing ← closingAngleFrom? 0 0 ahead
    let blanks := (ahead.drop (closing + 1)).takeWhile Cell.isTrivia
    return closing + 1 + blanks.length
  else some 0

/-- The insertion of `qualifier`, unless it is empty or already there as a word. -/
def qualifierInsertion? (sig : Signature) (qualifier : Bytes) : Option Splice :=
  if qualifier.isEmpty || (Callable.words (Cell.views sig.aheadOfName)).contains qualifier then none
  else sig.qualifierPlace?.map (.insert · (qualifier ++ [Byte.space]))

structure DefaultState where
  nest : Nat := 0
  angle : Nat := 0
  removing : Option Nat := none

namespace DefaultState

/-- Whether a less-than sign after `b` opens a template argument list: it is glued to a name. -/
def isGlue (b : Byte) : Bool := Byte.isLetter b || b == Byte.underscore || b == Byte.colon

def isTop (st : DefaultState) : Bool := st.nest == 0 && st.angle == 0

def after (st : DefaultState) (before b : Byte) (blanks : Nat) : DefaultState :=
  if b = Byte.openParen ∨ b = Byte.openBracket ∨ b = Byte.openBrace then
    { st with nest := st.nest + 1 }
  else if (b = Byte.closeParen ∨ b = Byte.closeBracket ∨ b = Byte.closeBrace) ∧ 0 < st.nest then
    { st with nest := st.nest - 1 }
  else if b = Byte.less ∧ isGlue before then { st with angle := st.angle + 1 }
  else if b = Byte.greater ∧ 0 < st.angle ∧ before ≠ Byte.minus then
    { st with angle := st.angle - 1 }
  else if b = Byte.equals ∧ st.isTop ∧ st.removing = none then { st with removing := some blanks }
  else st

end DefaultState

/-- The removals of the default arguments in cells at `at_` that follow `before` and end with the
parenthesis that closes the list. The blanks before the cells begin at `blanks`. -/
def defaultsFrom (st : DefaultState) (before : Byte) (blanks at_ : Nat) : List Cell → List Splice
  | [] => []
  | c :: cells =>
    let blanks' := if Byte.isBlank c.byte then blanks else at_ + 1
    if cells = [] ∨ c.isCodeByte Byte.comma ∧ st.isTop then
      st.removing.toList.map (.remove · at_) ++
        defaultsFrom { st with removing := none } c.byte blanks' (at_ + 1) cells
    else if c.isCode then
      defaultsFrom (st.after before c.byte blanks) c.byte blanks' (at_ + 1) cells
    else defaultsFrom st c.byte blanks' (at_ + 1) cells

/-- The removals of all default arguments, with the blanks before their equals signs. A definition
repeats none of them. -/
def defaultRemovals (sig : Signature) : List Splice :=
  match sig.parameters with
  | none => []
  | some parameters =>
    let start := parameters.start + 1
    defaultsFrom {} Byte.openParen start start ((Span.mk start parameters.stop).slice sig.cells)

def render (sig : Signature) (edits : List Splice) : Bytes :=
  Blank.trimEnd (Cell.bytes (Splice.apply sig.cells edits))

/-- The rest of a text in one line: no comments, and one space for blanks in code, but none after an
opening parenthesis and before a closing one or a comma. `pending` says whether blanks were just
passed, `written` is the text so far, backwards. -/
def collapseFrom (pending : Bool) (written : Bytes) : List Cell → Bytes
  | [] => written.reverse
  | c :: cells =>
    if c.isComment || (c.isCode && Byte.isBlank c.byte) then
      collapseFrom (written != []) written cells
    else if pending && written.head? != some Byte.openParen &&
        c.byte != Byte.closeParen && c.byte != Byte.comma then
      collapseFrom false (c.byte :: Byte.space :: written) cells
    else collapseFrom false (c.byte :: written) cells

def renderCollapsed (sig : Signature) (edits : List Splice) : Bytes :=
  collapseFrom false [] (Splice.apply sig.cells edits)

end Signature

end OutOfLine
