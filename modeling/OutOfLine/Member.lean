import OutOfLine.Declaration

/-! The member functions of a class body: where the statements end, which of them declare a
function, and by which name. What is decided about a signature is decided on its code view, which
is ASCII. -/

namespace OutOfLine

structure Options where
  keywords : List Bytes := [utf8 "class", utf8 "struct"]
  /-- Methods expected outside the private section, in the order in which they are reported. -/
  interfaceMethods : List Bytes := [utf8 "hasFunction", utf8 "call"]
  /-- Methods dropped without a trace. -/
  skippedMethods : List Bytes := [utf8 "getName"]
  markers : List Bytes := [utf8 "override", utf8 "final", utf8 "virtual"]
  captures : List Substitution := [⟨utf8 "[this]", utf8 "[]"⟩]
  /-- The word that makes a former member local to its file. -/
  qualifier : Bytes := utf8 "static"
  /-- The innermost namespaces that must stand around the declaration. -/
  namespaces : List Bytes := []
  placeholder : Bytes := utf8 "// Forward declarations"
  banner : Bytes := utf8 "// Helper functions"
  deriving DecidableEq, Repr

namespace Callable

/-- Words that begin a type or a scope and no function. -/
def typeWords : List Bytes :=
  [utf8 "class", utf8 "struct", utf8 "union", utf8 "enum", utf8 "namespace", utf8 "typedef",
   utf8 "using"]

/-- Words of statements and operators that may stand in front of a parenthesis. -/
def controlWords : List Bytes :=
  [utf8 "if", utf8 "for", utf8 "while", utf8 "switch", utf8 "return", utf8 "catch", utf8 "sizeof",
   utf8 "decltype", utf8 "alignas"]

def close (word : Bytes) (words : List Bytes) : List Bytes :=
  if word = [] then words else word.reverse :: words

/-- The words outside angle brackets in a text that stands inside `angle` of them and right after
`word`, given backwards. A closing bracket too many counts for nothing. -/
def wordsFrom (angle : Nat) (word : Bytes) : Bytes → List Bytes
  | [] => close word []
  | b :: rest =>
    if b = Byte.less then close word (wordsFrom (angle + 1) [] rest)
    else if b = Byte.greater then close word (wordsFrom (angle - 1) [] rest)
    else if Byte.isIdent b ∧ angle = 0 then wordsFrom angle (b :: word) rest
    else close word (wordsFrom angle [] rest)

def words (text : Bytes) : List Bytes := wordsFrom 0 [] text

/-- Offset of the parenthesis that opens the parameter list in a text at `at_` that stands inside
`angle` angle brackets: the first one outside them, if no equals sign outside them comes first. -/
def parameterListFrom? (angle at_ : Nat) : Bytes → Option Nat
  | [] => none
  | b :: rest =>
    if b = Byte.less then parameterListFrom? (angle + 1) (at_ + 1) rest
    else if b = Byte.greater then parameterListFrom? (angle - 1) (at_ + 1) rest
    else if b = Byte.equals ∧ angle = 0 then none
    else if b = Byte.openParen ∧ angle = 0 then some at_
    else parameterListFrom? angle (at_ + 1) rest

def findWordFrom? (word : Bytes) (at_ : Nat) (before : Option Byte) : Bytes → Option Nat
  | [] => none
  | b :: rest =>
    if word.isPrefixOf (b :: rest) && !before.any Byte.isIdent &&
        Bytes.atWordEnd ((b :: rest).drop word.length)
    then some at_ else findWordFrom? word (at_ + 1) (some b) rest

def lengthToLastToken (text : Bytes) : Nat := (text.reverse.dropWhile Byte.isBlank).length

/-- The name of an operator whose keyword stands at `keyword`: from the keyword up to the parenthesis
of the parameter list. The first parentheses of `operator()` belong to the name. -/
def operatorName? (text : Bytes) (keyword : Nat) : Option Span := do
  let afterKeyword := keyword + (utf8 "operator").length
  let symbol := afterKeyword + ((text.drop afterKeyword).takeWhile Byte.isBlank).length
  let symbol := if (utf8 "()").isPrefixOf (text.drop symbol) then symbol + 2 else symbol
  let distance ← (text.drop symbol).findIdx? (· == Byte.openParen)
  let name := (text.take (symbol + distance)).drop keyword
  return ⟨keyword, keyword + lengthToLastToken name⟩

/-- The identifier at the end of `text`, with the tilde of a destructor, if it can name a function. -/
def plainName? (text : Bytes) : Option Span := do
  let tokens := text.reverse.dropWhile Byte.isBlank
  let word := tokens.takeWhile Byte.isIdent
  guard (word ≠ [] && !word.getLast?.any Byte.isDigit)
  let tilde := (tokens.drop word.length).head? == some Byte.tilde
  let length := if tilde then word.length + 1 else word.length
  guard (!controlWords.contains (tokens.take length).reverse)
  return ⟨tokens.length - length, tokens.length⟩

/-- Where the name stands in the code view of a signature, if it declares a function: a parameter list
outside angle brackets, an identifier in front of it, and no equals sign before it. -/
def name? (text : Bytes) : Option Span :=
  match findWordFrom? (utf8 "operator") 0 none text with
  | some keyword => operatorName? text keyword
  | none => do
    let paren ← parameterListFrom? 0 0 text
    let ahead := text.take paren
    guard (!(words ahead).head?.any typeWords.contains)
    plainName? ahead

end Callable

inductive StatementEnd where
  | semicolon (offset : Nat)
  | body (opening : Nat)
  deriving DecidableEq, Repr

structure StatementState where
  parens : Int := 0
  parameters : Bool := false
  initializers : Bool := false
  last : Option Byte := none
  resume : Nat := 0

namespace StatementState

/-- Whether a brace here belongs to the initializer of a member: it follows a name or a template
argument list, after the colon of a constructor. -/
def opensInitializer (st : StatementState) : Bool :=
  st.initializers && st.last.any fun b => Byte.isIdent b || b == Byte.greater

def after (st : StatementState) (b : Byte) (next : Option Byte) : StatementState :=
  if b = Byte.openParen then { st with parens := st.parens + 1, last := some b }
  else if b = Byte.closeParen then
    { st with parens := st.parens - 1, parameters := st.parameters || st.parens - 1 == 0,
              last := some b }
  else if b = Byte.colon ∧ st.parens = 0 ∧ st.parameters then
    let scope := st.last == some Byte.colon || next == some Byte.colon
    { st with initializers := st.initializers || !scope, last := some b }
  else { st with last := some b }

end StatementState

namespace Scan

/-- How the statement goes on and ends in `cells`, which stand at `at_` and end its section. A brace
inside parentheses belongs to a default argument. -/
def statementEndFrom (s : Scan) (st : StatementState) (at_ : Nat) :
    List Cell → Except Fault (Option StatementEnd)
  | [] => .ok none
  | c :: cells =>
    if at_ < st.resume || c.isTrivia then statementEndFrom s st (at_ + 1) cells
    else if c.byte = Byte.semicolon ∧ st.parens = 0 then .ok (some (.semicolon at_))
    else if c.byte = Byte.openBrace ∧ st.parens = 0 then
      if st.opensInitializer then
        match s.locateBlock at_ with
        | .error e => .error e
        | .ok block =>
          let st := { st with last := some Byte.closeBrace, resume := block.closing + 1 }
          statementEndFrom s st (at_ + 1) cells
      else .ok (some (.body at_))
    else statementEndFrom s (st.after c.byte (cells.head?.map Cell.byte)) (at_ + 1) cells

def statementEnd (s : Scan) (at_ : Nat) (cells : List Cell) : Except Fault (Option StatementEnd) :=
  statementEndFrom s {} at_ cells

end Scan

structure Callable where
  /-- From the first code byte up to the blanks before the body. -/
  signature : Span
  name : Span
  body : Block
  deriving DecidableEq, Repr

def Callable.span (c : Callable) : Span := ⟨c.signature.start, c.body.closing + 1⟩

inductive MemberKind where
  | interfaceMethod
  | helper
  deriving DecidableEq, Repr

structure Member where
  name : Bytes
  kind : MemberKind
  part : SectionKind
  callable : Callable
  deriving DecidableEq, Repr

namespace Member

def span (m : Member) : Span := m.callable.span

def isInterface (m : Member) : Bool := m.kind == .interfaceMethod

def isHelper (m : Member) : Bool := m.kind == .helper

end Member

structure Extraction where
  /-- In the order of the text. -/
  members : List Member := []
  /-- Functions left out: skipped methods, constructors and the destructor. -/
  dropped : List Span := []
  warnings : List Warning := []
  deriving DecidableEq, Repr

namespace Extraction

/-- The function that the statement from `start` to the brace at `opening` defines, if any. `cells`
are those from `start` on. -/
def callable? (start opening : Nat) (cells : List Cell) (body : Block) : Option Callable := do
  let ahead := cells.take (opening - start)
  let length := Callable.lengthToLastToken (Cell.bytes ahead)
  let name ← Callable.name? (Cell.views (ahead.take length))
  return ⟨⟨start, start + length⟩, name.shift start, body⟩

def directiveEnd (start : Nat) (cells : List Cell) : Nat :=
  start + ((cells.findIdx? (·.isCodeByte Byte.newline)).map (· + 1)).getD cells.length

/-- The functions that the statements in `cells` define. The cells stand at `at_` and end a section
with the labels `markers`; those before `resume` are stepped over. The walk ends at a statement that
does not end within its section. As in a release build, nothing is asserted of the depth of a body. -/
def callablesFrom (s : Scan) (markers : List Marker) (resume at_ : Nat) :
    List Cell → Except Fault (List Callable)
  | [] => .ok []
  | c :: cells =>
    if at_ < resume || c.isTrivia then callablesFrom s markers resume (at_ + 1) cells
    else match markers.find? (·.span.start == at_) with
      | some marker => callablesFrom s markers marker.span.stop (at_ + 1) cells
      | none =>
        if c.byte = Byte.hash then
          callablesFrom s markers (directiveEnd at_ (c :: cells)) (at_ + 1) cells
        else match s.statementEnd at_ (c :: cells) with
          | .error e => .error e
          | .ok none => .ok []
          | .ok (some (.semicolon offset)) => callablesFrom s markers (offset + 1) (at_ + 1) cells
          | .ok (some (.body opening)) =>
            match s.locateBlock opening with
            | .error e => .error e
            | .ok body =>
              (callablesFrom s markers (body.closing + 1) (at_ + 1) cells).map
                ((callable? at_ opening (c :: cells) body).toList ++ ·)

def callables (s : Scan) (markers : List Marker) (section_ : BodySection) :
    Except Fault (List Callable) :=
  callablesFrom s markers section_.span.start section_.span.start (section_.span.slice s.cells)

def add (s : Scan) (owner : Bytes) (options : Options) (part : SectionKind) (e : Extraction)
    (c : Callable) : Extraction :=
  let name := s.slice c.name
  if name = owner ∨ name = Byte.tilde :: owner then
    { e with dropped := e.dropped ++ [c.span]
             warnings := e.warnings ++ [.skippedMember name c.signature.start] }
  else if options.skippedMethods.contains name then { e with dropped := e.dropped ++ [c.span] }
  else
    let kind :=
      if part != .hidden && options.interfaceMethods.contains name then .interfaceMethod else .helper
    { e with members := e.members ++ [⟨name, kind, part, c⟩] }

def addSections (s : Scan) (d : Declaration) (markers : List Marker) (options : Options)
    (e : Extraction) : List BodySection → Except Fault Extraction
  | [] => .ok e
  | section_ :: sections => do
    let found ← callables s markers section_
    addSections s d markers options (found.foldl (add s d.name options section_.kind) e) sections

def missing (options : Options) (members : List Member) : List Warning :=
  (options.interfaceMethods.filter fun name =>
    !(members.any fun m => m.isInterface && m.name == name)).map .methodNotFound

def of (s : Scan) (d : Declaration) (sectioning : Sectioning) (options : Options) :
    Except Fault Extraction := do
  let e ← addSections s d sectioning.markers options {} sectioning.sections
  let extra := sectioning.extraMarkers.map fun m => .extraLabel m.access.word m.span.start
  return {
    members := e.members.mergeSort fun a b => a.callable.signature.start ≤ b.callable.signature.start
    dropped := e.dropped.mergeSort fun a b => !b.precedes a
    warnings := e.warnings ++ missing options e.members ++ extra }

end Extraction

end OutOfLine
