import OutOfLine.Scan

/-! Class-shaped declarations, the namespaces around them, and the sections of a class body. Only
the first label that is not public parts the body; what follows it is private to the end. -/

namespace OutOfLine

structure Declaration where
  name : Bytes
  anchor : Nat
  block : Block
  /-- Past the closing brace, or past the semicolon that ends the declaration. -/
  stop : Nat
  deriving DecidableEq, Repr

namespace Declaration

def heading (d : Declaration) : Span := ⟨d.anchor, d.block.opening⟩

/-- How many of the blanks that `text` begins with stand before `name`, which ends at a word
boundary. More blanks are preferred to fewer, and there is at least one. -/
def blanksBefore? (name text : Bytes) : Option Nat :=
  ((List.range (text.takeWhile Byte.isWhite).length).reverse.map (· + 1)).find? fun n =>
    name.isPrefixOf (text.drop n) &&
      isWordBoundary name.getLast? (text.drop (n + name.length)).head?

/-- Recognises one of `keywords` at a word boundary, blanks, and `name` as a whole word. The first
keyword that fits counts. -/
def head (keywords : List Bytes) (name : Bytes) : Recogniser Unit := fun before text =>
  if isWordBoundary before text.head? then
    keywords.findSome? fun keyword => do
      let rest ← Bytes.dropHead? keyword text
      let blanks ← blanksBefore? name rest
      return (keyword.length + blanks + name.length, ())
  else none

/-- Past the closing brace at `closing`, and past a semicolon that only spaces and tabs part from it. -/
def stopAfter (text : Bytes) (closing : Nat) : Nat :=
  let rest := text.drop (closing + 1)
  let blanks := (rest.takeWhile Byte.isInlineBlank).length
  if (rest.drop blanks).head? = some Byte.semicolon then closing + 1 + blanks + 1 else closing + 1

/-- The first of some heads that opens a body. A head with a semicolon before the next opening brace
is a forward declaration. -/
def firstWithBody (s : Scan) (name : Bytes) : List Span → Except Fault Declaration
  | [] => .error (.declarationNotFound name)
  | found :: heads =>
    match s.findCode? Byte.openBrace found.stop s.length with
    | none => .error (.declarationNotFound name)
    | some opening =>
      if (s.findCode? Byte.semicolon found.stop opening).isSome then firstWithBody s name heads
      else do
        let block ← s.locateBlock found.start
        return ⟨name, found.start, block, stopAfter s.bytes block.closing⟩

def find (s : Scan) (name : Bytes) (keywords : List Bytes) : Except Fault Declaration :=
  if keywords = [] ∨ name = [] then .error (.declarationNotFound name)
  else
    let view := s.view ⟨0, s.length⟩
    firstWithBody s name (((head keywords name).matches view).map Prod.fst)

end Declaration

structure Wrapper where
  /-- The names in source order: two for `namespace a::b`, none for an anonymous namespace. -/
  names : List Bytes
  opening : Nat
  closing : Option Nat
  deriving DecidableEq, Repr

namespace Wrapper

def dropHeads (head text : Bytes) : Bytes :=
  if _h : head.isPrefixOf text ∧ head ≠ [] then dropHeads head (text.drop head.length) else text
termination_by text.length
decreasing_by
  have := (List.isPrefixOf_iff_prefix.mp _h.1).length_le
  have := List.length_pos_iff.mpr _h.2
  simp only [List.length_drop]; omega

def nestedName (part : Bytes) : Bytes :=
  Blank.trimAscii (dropHeads (utf8 "inline ") (Blank.trimAscii part))

/-- The lines of a heading in one line, without blank lines and preprocessor lines. -/
def joinLines (heading : Bytes) : Bytes :=
  [Byte.space].intercalate <|
    ((Bytes.splitOn [Byte.newline] heading).map Blank.trimAscii).filter fun line =>
      line ≠ [] && line.head? != some Byte.hash

def names? (heading : Bytes) : Option (List Bytes) := do
  let line := joinLines heading
  let line := Blank.trimAsciiStart ((Bytes.dropHead? (utf8 "inline ") line).getD line)
  let rest ← Bytes.dropHead? (utf8 "namespace") line
  guard (rest.head?.all Byte.isWhite)
  return ((Bytes.splitOn (utf8 "::") rest).map nestedName).filter (· ≠ [])

/-- Whether a heading that follows the cell cannot reach back over it. -/
def isBarrier (c : Cell) : Bool :=
  c.isCodeByte Byte.semicolon || c.isCodeByte Byte.openBrace || c.isCodeByte Byte.closeBrace

def headingBefore (s : Scan) (opening : Nat) : Bytes :=
  Cell.views ((s.cells.take opening).reverse.takeWhile (!isBarrier ·)).reverse

def of? (s : Scan) (b : Brace) : Option Wrapper := do
  let names ← names? (headingBefore s b.offset)
  return ⟨names, b.offset, (b.partner.bind (s.braces[·]?)).map Brace.offset⟩

def openAfter (opened : List Brace) : List Brace → List Brace
  | [] => opened
  | b :: braces =>
    match b.kind with
    | .opening => openAfter (b :: opened) braces
    | .closing => openAfter opened.tail braces

/-- The braces open at `offset`, outermost first. -/
def openAt (s : Scan) (offset : Nat) : List Brace :=
  (openAfter [] (s.braces.takeWhile (·.offset < offset))).reverse

/-- The namespace blocks around `offset`, outermost first. Other blocks around it are left out. -/
def enclosing (s : Scan) (offset : Nat) : List Wrapper := (openAt s offset).filterMap (of? s)

/-- Whether the names `required`, innermost first, are those of the innermost wrappers `found`, and
these are closed. A name that is missing is reported at `anchor`. -/
def checkInnermost (s : Scan) (anchor : Nat) :
    (required : List Bytes) → (found : List (Bytes × Wrapper)) → Except Fault Unit
  | [], _ => .ok ()
  | name :: _, [] => .error (.namespaceNotFound name anchor (s.line anchor))
  | name :: required, (present, wrapper) :: found =>
    if present = name then
      if wrapper.closing = none then
        .error (.namespaceNotFound name wrapper.opening (s.line wrapper.opening))
      else checkInnermost s anchor required found
    else .error (.namespaceNotFound name anchor (s.line anchor))

def check (s : Scan) (d : Declaration) (required : List Bytes) : Except Fault (List Wrapper) := do
  let wrappers := enclosing s d.anchor
  let named := wrappers.flatMap fun w => w.names.map (·, w)
  checkInnermost s d.anchor required.reverse named.reverse
  return wrappers

end Wrapper

inductive Access where
  | pub
  | priv
  | prot
  deriving DecidableEq, Repr

inductive SectionKind where
  | heading
  | exposed
  | hidden
  deriving DecidableEq, Repr

structure BodySection where
  kind : SectionKind
  span : Span
  deriving DecidableEq, Repr

namespace Access

def word : Access → Bytes
  | .pub => utf8 "public"
  | .priv => utf8 "private"
  | .prot => utf8 "protected"

def label : Recogniser Access := fun before text =>
  if isWordBoundary before text.head? then
    [pub, priv, prot].findSome? fun access => do
      let rest ← Bytes.dropHead? access.word text
      let blanks := (rest.takeWhile Byte.isWhite).length
      guard ((rest.drop blanks).head? = some Byte.colon)
      return (access.word.length + blanks + 1, access)
  else none

end Access

structure Marker where
  access : Access
  span : Span
  deriving DecidableEq, Repr

def Marker.isPublic (m : Marker) : Bool := m.access == .pub

structure Sectioning where
  sections : List BodySection
  markers : List Marker
  extraMarkers : List Marker
  deriving DecidableEq, Repr

namespace Sectioning

def hidden? (s : Sectioning) : Option BodySection := s.sections.find? (·.kind == .hidden)

/-- The labels at the top level of `block`. A second colon makes a scope qualifier of a label. -/
def markersOf (s : Scan) (block : Block) : List Marker :=
  let body := block.body
  let view := s.view body
  (Access.label.matches view).filterMap fun (found, access) =>
    if (view.drop found.stop).head? = some Byte.colon then none
    else if s.depthAt (body.start + found.start) ≠ block.innerDepth then none
    else some ⟨access, found.shift body.start⟩

/-- The sections of `body` when `leading` is the first public label in front of `parting`, the first
label that is not public. -/
def split (body : Span) (leading parting : Option Marker) : List BodySection :=
  let start := (leading.map (·.span.stop)).getD body.start
  let stop := (parting.map (·.span.start)).getD body.stop
  let heading := leading.toList.filterMap fun m =>
    if body.start < m.span.start then some ⟨.heading, ⟨body.start, m.span.start⟩⟩ else none
  let hidden := parting.toList.map fun m => ⟨.hidden, ⟨m.span.stop, body.stop⟩⟩
  heading ++ [⟨.exposed, ⟨start, stop⟩⟩] ++ hidden

def of (s : Scan) (block : Block) : Sectioning :=
  let markers := markersOf s block
  let parted := markers.dropWhile Marker.isPublic
  ⟨split block.body (markers.takeWhile Marker.isPublic).head? parted.head?, markers, parted.tail⟩

end Sectioning

end OutOfLine
