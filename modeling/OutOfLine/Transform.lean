import OutOfLine.Signature

/-! Member functions made into definitions outside their class, and the text that replaces the
class. Every byte around the class is copied. -/

namespace OutOfLine

namespace Capture

def splices (cells : List Cell) (s : Substitution) : List Splice :=
  ((Bytes.occurrences s.old (Cell.bytes cells)).filter fun at_ =>
    cells[at_]?.any Cell.isCode).map fun at_ => ⟨⟨at_, at_ + s.old.length⟩, s.new⟩

/-- The text of `cells` with the substitutions made. Where replacements overlap the leftmost counts,
and of two at the same place the one whose substitution stands first. -/
def replace (cells : List Cell) (substitutions : List Substitution) : Bytes :=
  let wanted := substitutions.flatMap (splices cells)
  Cell.bytes (Splice.applyFrom cells 0 (wanted.mergeSort fun a b => a.span.start ≤ b.span.start))

end Capture

structure Definition where
  name : Bytes
  kind : MemberKind
  part : SectionKind
  source : Span
  text : Bytes
  forward : Option Bytes
  deriving DecidableEq, Repr

namespace Definition

def isInterface (d : Definition) : Bool := d.kind == .interfaceMethod

def isHelper (d : Definition) : Bool := d.kind == .helper

def scope (owner : Bytes) : Bytes := owner ++ utf8 "::"

/-- The edits of a method of the interface: no markers, and the owner in front of the name. -/
def interfaceEdits (sig : Signature) (owner : Bytes) (options : Options) : List Splice :=
  sig.markerRemovals options.markers ++ [.insert sig.name.start (scope owner)]

/-- The edits of the forward declaration of a helper: no markers, no `const`, the qualifier in front. -/
def helperEdits (sig : Signature) (options : Options) : List Splice :=
  sig.markerRemovals options.markers ++ sig.constRemovals ++
    (sig.qualifierInsertion? options.qualifier).toList

def joiner (sig : Signature) : Bytes :=
  if sig.endsInLineComment then [Byte.newline] else [Byte.space]

def of (s : Scan) (owner : Bytes) (options : Options) (m : Member) : Definition :=
  let sig := Signature.of s m.callable
  let body := m.callable.body.span.slice s.cells
  match m.kind with
  | .interfaceMethod =>
    let signature := sig.render (interfaceEdits sig owner options)
    ⟨m.name, m.kind, m.part, m.span, signature ++ joiner sig ++ Cell.bytes body, none⟩
  | .helper =>
    let edits := helperEdits sig options
    let forward := sig.renderCollapsed edits ++ [Byte.semicolon]
    let signature := sig.render (edits ++ sig.defaultRemovals)
    ⟨m.name, m.kind, m.part, m.span,
      signature ++ joiner sig ++ Capture.replace body options.captures, some forward⟩

end Definition

structure Assembly where
  text : Bytes
  spliced : Span
  deriving DecidableEq, Repr

namespace Assembly

def line (text : Bytes) : Bytes := text ++ [Byte.newline]

def paragraph (text : Bytes) : Bytes := text ++ [Byte.newline, Byte.newline]

def fill (source : Bytes) (at_ stop : Nat) : List Splice → Bytes
  | [] => (Span.mk at_ stop).slice source
  | splice :: splices =>
    (Span.mk at_ splice.span.start).slice source ++ splice.text ++
      fill source splice.span.stop stop splices

/-- What is replaced in the hidden section: its helpers by their definitions, dropped functions by
nothing. -/
def replacements (hidden : Span) (definitions : List Definition) (dropped : List Span) :
    List Splice :=
  let helpers := (definitions.filter fun d => d.isHelper && d.part == .hidden).map fun d =>
    Splice.mk d.source d.text
  let gone := (dropped.filter hidden.encloses).map fun span => Splice.mk span []
  (helpers ++ gone).mergeSort fun a b => a.span.start ≤ b.span.start

def hiddenText (source : Bytes) (sectioning : Sectioning) (definitions : List Definition)
    (dropped : List Span) : Bytes :=
  match sectioning.hidden? with
  | none => []
  | some hidden =>
    fill source hidden.span.start hidden.span.stop (replacements hidden.span definitions dropped)

def replacement (source : Bytes) (sectioning : Sectioning) (definitions : List Definition)
    (dropped : List Span) (options : Options) : Bytes :=
  let helpers := definitions.filter Definition.isHelper
  let interface := definitions.filter Definition.isInterface
  let forwards := line options.placeholder ++
    (helpers.filterMap Definition.forward).flatMap line ++ [Byte.newline]
  let banner :=
    if sectioning.hidden?.isSome || !helpers.isEmpty then line options.banner else []
  let exposed := helpers.filter (·.part != .hidden)
  forwards ++ interface.flatMap (paragraph ·.text) ++ banner ++
    exposed.flatMap (paragraph ·.text) ++ hiddenText source sectioning definitions dropped

/-- The output for a declaration: its text replaced, and all before and after it as it was. -/
def of (source : Bytes) (d : Declaration) (sectioning : Sectioning)
    (definitions : List Definition) (dropped : List Span) (options : Options) : Assembly :=
  let before := source.take d.anchor
  let new := replacement source sectioning definitions dropped options
  ⟨before ++ new ++ source.drop d.stop, ⟨before.length, before.length + new.length⟩⟩

end Assembly

inductive Stage where
  | start
  | scanned
  | blockLocated
  | sectioned
  | extracted
  | defined
  | emitted
  deriving DecidableEq, Repr

def Stage.label : Stage → String
  | .start => "START"
  | .scanned => "SCANNED"
  | .blockLocated => "BLOCK_LOCATED"
  | .sectioned => "SECTIONED"
  | .extracted => "EXTRACTED"
  | .defined => "REWRITTEN"
  | .emitted => "EMITTED"

/-- Why a transformation stopped, and the last stage that it reached. -/
structure Failure where
  stage : Stage
  fault : Fault
  deriving DecidableEq, Repr

def Failure.message (f : Failure) : String :=
  let message := f.fault.message
  let stage := f.stage.label
  s!"{message} (halted at {stage})"

structure Transformed where
  output : Bytes
  warnings : List Warning
  definitions : List Definition
  spliced : Span
  deriving DecidableEq, Repr

namespace Transformed

def interfaceCount (t : Transformed) : Nat := t.definitions.countP Definition.isInterface

def helperCount (t : Transformed) : Nat := t.definitions.countP Definition.isHelper

end Transformed

def atStage (stage : Stage) : Except Fault α → Except Failure α :=
  Except.mapError (⟨stage, ·⟩)

def locate (s : Scan) (name : Bytes) (options : Options) : Except Fault Declaration := do
  let d ← Declaration.find s name options.keywords
  let _ ← Wrapper.check s d options.namespaces
  return d

def transform (source name : Bytes) (options : Options) : Except Failure Transformed := do
  let s ← atStage .start (Scan.of source)
  let d ← atStage .scanned (locate s name options)
  let sectioning := Sectioning.of s d.block
  let extraction ← atStage .sectioned (Extraction.of s d sectioning options)
  let definitions := extraction.members.map (Definition.of s name options)
  let assembly := Assembly.of source d sectioning definitions extraction.dropped options
  return ⟨assembly.text, extraction.warnings, definitions, assembly.spliced⟩

end OutOfLine
