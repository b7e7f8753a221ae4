import OutOfLine.Lexeme

/-! A classified text with its braces in code position, and the questions that the rest of the
library asks about it. Offsets may lie past the end; there the text counts as code. -/

namespace OutOfLine

inductive BraceKind where
  | opening
  | closing
  deriving DecidableEq, Repr

structure Brace where
  kind : BraceKind
  offset : Nat
  /-- The nesting depth after the brace; a stray closing brace takes it below zero. It has no bound, nor has
  the count of open parentheses in a statement: 32 bits are enough up to 2^31 brackets. -/
  depth : Int
  /-- Position of the matching brace in the list of all braces. -/
  partner : Option Nat
  deriving DecidableEq, Repr

namespace BraceKind

def of? (c : Cell) : Option BraceKind :=
  if c.isCodeByte Byte.openBrace then some .opening
  else if c.isCodeByte Byte.closeBrace then some .closing
  else none

def step : BraceKind → Int
  | .opening => 1
  | .closing => -1

/-- The matching of a list of braces at position `at_`, as pairs of positions, while the braces at
the positions `unclosed` are open, innermost first. -/
def pairsFrom (unclosed : List Nat) (at_ : Nat) : List BraceKind → List (Nat × Nat)
  | [] => []
  | .opening :: kinds => pairsFrom (at_ :: unclosed) (at_ + 1) kinds
  | .closing :: kinds =>
    match unclosed with
    | [] => pairsFrom [] (at_ + 1) kinds
    | opened :: unclosed => (opened, at_) :: pairsFrom unclosed (at_ + 1) kinds

def pairs (kinds : List BraceKind) : List (Nat × Nat) := pairsFrom [] 0 kinds

def partners (kinds : List BraceKind) : Array (Option Nat) :=
  (pairs kinds).foldl
    (fun found pair => (found.setIfInBounds pair.1 (some pair.2)).setIfInBounds pair.2 (some pair.1))
    (Array.replicate kinds.length none)

end BraceKind

namespace Brace

def marksFrom (offset : Nat) : List Cell → List (Nat × BraceKind)
  | [] => []
  | c :: cells =>
    match BraceKind.of? c with
    | some kind => (offset, kind) :: marksFrom (offset + 1) cells
    | none => marksFrom (offset + 1) cells

/-- The braces at some marks, the first of them at position `at_` and reached at `depth`. -/
def assemble (partners : Array (Option Nat)) (at_ : Nat) (depth : Int) :
    List (Nat × BraceKind) → List Brace
  | [] => []
  | (offset, kind) :: marks =>
    ⟨kind, offset, depth + kind.step, partners[at_]?.join⟩ ::
      assemble partners (at_ + 1) (depth + kind.step) marks

def all (cells : List Cell) : List Brace :=
  let marks := marksFrom 0 cells
  assemble (BraceKind.partners (marks.map Prod.snd)) 0 0 marks

end Brace

structure Block where
  opening : Nat
  closing : Nat
  depth : Int
  deriving DecidableEq, Repr

namespace Block

def span (b : Block) : Span := ⟨b.opening, b.closing + 1⟩

def body (b : Block) : Span := ⟨b.opening + 1, b.closing⟩

def innerDepth (b : Block) : Int := b.depth + 1

end Block

inductive Fault where
  | unterminated (opener : Opener) (offset line : Nat)
  | unmatchedBlock (offset line : Nat)
  | declarationNotFound (name : Bytes)
  | namespaceNotFound (name : Bytes) (offset line : Nat)
  deriving DecidableEq, Repr

namespace Fault

def kind : Fault → String
  | .unterminated .. => "scan-error"
  | .unmatchedBlock .. => "unmatched-block"
  | .declarationNotFound _ => "declaration-not-found"
  | .namespaceNotFound .. => "namespace-wrapper-not-found"

def message : Fault → String
  | .unterminated opener offset line =>
    let label := opener.label
    s!"unterminated {label} opened at byte {offset} (line {line})"
  | .unmatchedBlock offset line =>
    s!"brace opened at byte {offset} (line {line}) is never closed"
  | .declarationNotFound name =>
    let name := name.text
    s!"declaration `{name}` not found"
  | .namespaceNotFound name offset line =>
    let name := name.text
    s!"enclosing namespace `{name}` not found around byte {offset} (line {line})"

def place? : Fault → Option (Nat × Nat)
  | .unterminated _ offset line => some (offset, line)
  | .unmatchedBlock offset line => some (offset, line)
  | .declarationNotFound _ => none
  | .namespaceNotFound _ offset line => some (offset, line)

end Fault

inductive Warning where
  | methodNotFound (name : Bytes)
  | skippedMember (name : Bytes) (offset : Nat)
  | extraLabel (label : Bytes) (offset : Nat)
  deriving DecidableEq, Repr

namespace Warning

def kind : Warning → String
  | .methodNotFound _ => "method_not_found"
  | .skippedMember .. => "skipped_member"
  | .extraLabel .. => "extra_section_marker"

def message : Warning → String
  | .methodNotFound name =>
    let name := name.text
    s!"interface method `{name}` not found; its definition is omitted"
  | .skippedMember name offset =>
    let name := name.text
    s!"member `{name}` at byte {offset} cannot become a free function and was dropped"
  | .extraLabel label offset =>
    let label := label.text
    s!"additional `{label}:` at byte {offset} is kept as private-section text"

end Warning

structure Scan where
  cells : List Cell
  braces : List Brace := Brace.all cells
  braces_eq : braces = Brace.all cells := by rfl

namespace Scan

/-- The scan of a text. It fails at the first opener that is never closed. -/
def of (text : Bytes) : Except Fault Scan :=
  match Cell.classify text with
  | .ok cells => .ok { cells }
  | .error ⟨opener, offset⟩ => .error (.unterminated opener offset (lineAt text offset))

def length (s : Scan) : Nat := s.cells.length

def bytes (s : Scan) : Bytes := Cell.bytes s.cells

def line (s : Scan) (offset : Nat) : Nat := lineAt s.bytes offset

def cls (s : Scan) (offset : Nat) : LexClass := (s.cells[offset]?.map Cell.cls).getD .code

def isCode (s : Scan) (offset : Nat) : Bool := s.cls offset == .code

/-- The brace depth in effect at `offset`, before a brace that stands there. -/
def depthAt (s : Scan) (offset : Nat) : Int :=
  ((s.braces.takeWhile (·.offset < offset)).getLast?.map Brace.depth).getD 0

def firstOpenFrom? (s : Scan) (offset : Nat) : Option Nat :=
  s.braces.findIdx? fun b => offset ≤ b.offset && b.kind == .opening

def findCode? (s : Scan) (needle : Byte) (start stop : Nat) : Option Nat :=
  (((Span.mk start stop).slice s.cells).findIdx? (·.isCodeByte needle)).map (start + ·)

def skipTrivia (s : Scan) (start stop : Nat) : Nat :=
  ((((Span.mk start stop).slice s.cells).findIdx? (!·.isTrivia)).map (start + ·)).getD stop

def slice (s : Scan) (span : Span) : Bytes := Cell.bytes (span.slice s.cells)

def view (s : Scan) (span : Span) : Bytes := Cell.views (span.slice s.cells)

def unmatched (s : Scan) (offset : Nat) : Fault := .unmatchedBlock offset (s.line offset)

/-- The block that the first opening brace at or after `anchor` opens. -/
def locateBlock (s : Scan) (anchor : Nat) : Except Fault Block :=
  match (s.firstOpenFrom? anchor).bind (s.braces[·]?) with
  | none => .error (s.unmatched anchor)
  | some opened =>
    match opened.partner.bind (s.braces[·]?) with
    | none => .error (s.unmatched opened.offset)
    | some closed => .ok ⟨opened.offset, closed.offset, opened.depth - 1⟩

end Scan

end OutOfLine
