import OutOfLine.Manifest
import OutOfLine.Transform

/-! Running a manifest. Targets that share files are run in the order of the manifest, no failure
stops another target, and every target has its entry in the report. -/

namespace OutOfLine

inductive TargetError where
  | unreadable (path : Path) (cause : FileError)
  | backup (path : Path) (cause : FileError)
  | unwritable (path : Path) (cause : FileError)
  | failure (cause : Failure)
  deriving DecidableEq, Repr

namespace TargetError

def kind : TargetError → String
  | .unreadable .. => "read-error"
  | .backup .. => "backup-error"
  | .unwritable .. => "write-error"
  | .failure cause => cause.fault.kind

def about (action : String) (path : Path) (cause : FileError) : String :=
  let path := path.display
  let cause := cause.message
  s!"failed to {action} {path}: {cause}"

def message : TargetError → String
  | .unreadable path cause => about "read" path cause
  | .backup path cause => about "back up" path cause
  | .unwritable path cause => about "write" path cause
  | .failure cause => cause.message

def place? : TargetError → Option (Nat × Nat)
  | .failure cause => cause.fault.place?
  | _ => none

def stage? : TargetError → Option Stage
  | .failure cause => some cause.stage
  | _ => none

def diagnostic (e : TargetError) : String :=
  let kind := e.kind
  let message := e.message
  match e.place? with
  | some (offset, line) => s!"{kind} at byte {offset} (line {line}): {message}"
  | none => s!"{kind}: {message}"

end TargetError

inductive Notice where
  | unknownKey (origin : Path) (key : String)
  | warning (declaration : Bytes) (warning : Warning)
  | failure (target : Target) (error : TargetError)
  | skipped (path : Path) (fault : Fault)
  deriving DecidableEq, Repr

namespace Notice

def isError : Notice → Bool
  | .failure .. => true
  | _ => false

def message : Notice → String
  | .unknownKey origin key => Key.unknownMessage origin (Key.suggestion? key)
  | .warning _ w => w.message
  | .failure _ error => error.diagnostic
  | .skipped _ f =>
    let fault := f.message
    s!"Skipping file: {fault}"

end Notice

namespace Manifest

def defaultPath : Path := ⟨utf8 "outline.toml"⟩

/-- The manifest in a file. Its paths are seen from the directory of the file. -/
def load [Monad m] [Storage m] (origin : Path) :
    m (List Notice × Except ManifestError Manifest) := do
  match ← Storage.readText origin with
  | .error cause => return ([], .error (.unreadable cause))
  | .ok text =>
    let (unknown, manifest) := read (origin.parent?.getD Path.current) text
    return (unknown.map (Notice.unknownKey origin), manifest)

end Manifest

structure Handling where
  includes : List Substitution := []
  backup : Bool := false
  dryRun : Bool := false
  deriving DecidableEq, Repr

/-- What came of a target. Warnings are given even if the result could not be written. -/
structure Outcome where
  warnings : List Warning
  result : Except TargetError Transformed

namespace Outcome

def failed (e : TargetError) (warnings : List Warning) : Outcome := ⟨warnings, .error e⟩

def done (t : Transformed) : Outcome := ⟨t.warnings, .ok t⟩

end Outcome

namespace Target

def transform (t : Target) (options : Options) (content : Bytes) :
    Except TargetError Transformed :=
  match content.decode? with
  | none => .error (.unreadable t.path .notText)
  | some _ => (OutOfLine.transform content t.declaration options).mapError .failure

def makeBackup [Monad m] [Storage m] (t : Target) : m (Except TargetError Unit) := do
  if ← Storage.isPresent t.destination then
    let copy := t.destination.backup
    return (← Storage.copy t.destination copy).mapError (.backup copy)
  else return .ok ()

def write [Monad m] [Storage m] (t : Target) (h : Handling) (result : Transformed) :
    m (Except TargetError Unit) := do
  let copied ← if h.backup then t.makeBackup else pure (.ok ())
  match copied with
  | .error e => return .error e
  | .ok () =>
    let output := Bytes.substituteAll result.output h.includes
    return (← Storage.replace t.destination output).mapError (.unwritable t.destination)

def process [Monad m] [Storage m] (t : Target) (options : Options) (h : Handling) : m Outcome := do
  match ← Storage.read t.path with
  | .error cause => return .failed (.unreadable t.path cause) []
  | .ok content =>
    match t.transform options content with
    | .error e => return .failed e []
    | .ok result =>
      if h.dryRun then return .done result
      else
        match ← t.write h result with
        | .error e => return .failed e result.warnings
        | .ok () => return .done result

end Target

inductive Status where
  | written
  | dryRun
  | failed
  deriving DecidableEq, Repr

def Status.tag : Status → String
  | .written => "written"
  | .dryRun => "dry_run"
  | .failed => "failed"

structure TargetReport where
  target : Target
  status : Status
  error : Option TargetError := none
  warnings : List Warning := []
  interfaceCount : Nat := 0
  helperCount : Nat := 0
  deriving DecidableEq, Repr

namespace TargetReport

def ofOutcome (t : Target) (dryRun : Bool) (o : Outcome) : TargetReport :=
  match o.result with
  | .error e => { target := t, status := .failed, error := some e }
  | .ok result =>
    { target := t
      status := if dryRun then .dryRun else .written
      warnings := result.warnings
      interfaceCount := result.interfaceCount
      helperCount := result.helperCount }

def isFailed (r : TargetReport) : Bool := r.status == .failed

end TargetReport

@[ext]
structure BatchReport where
  targets : List TargetReport
  deriving DecidableEq, Repr

namespace BatchReport

def failed (r : BatchReport) : Nat := r.targets.countP TargetReport.isFailed

def succeeded (r : BatchReport) : Nat := r.targets.length - r.failed

def isSuccess (r : BatchReport) : Bool := r.failed == 0

end BatchReport

structure Group where
  files : List Path
  members : List Nat
  deriving DecidableEq, Repr

namespace Group

def touches (t : Target) (g : Group) : Bool :=
  g.files.any fun file => file.same t.path || file.same t.destination

/-- Some groups with the target at `index`: all groups that it touches become one with it. -/
def insert (t : Target) (index : Nat) (groups : List Group) : List Group :=
  let touched := groups.filter (touches t)
  let merged : Group :=
    ⟨t.path :: t.destination :: touched.flatMap files,
      (touched.flatMap members ++ [index]).mergeSort fun a b => a ≤ b⟩
  groups.filter (!touches t ·) ++ [merged]

def ofTargetsFrom (index : Nat) (groups : List Group) : List Target → List Group
  | [] => groups
  | t :: targets => ofTargetsFrom (index + 1) (insert t index groups) targets

/-- The groups of some targets. -/
def ofTargets (targets : List Target) : List Group := ofTargetsFrom 0 [] targets

end Group

structure TargetRun where
  index : Nat
  report : TargetReport
  notices : List Notice

namespace TargetRun

def ofOutcome (t : Target) (index : Nat) (dryRun : Bool) (o : Outcome) : TargetRun :=
  let warnings := o.warnings.map (Notice.warning t.declaration)
  let errors := match o.result with
    | .error e => [Notice.failure t e]
    | .ok _ => []
  ⟨index, .ofOutcome t dryRun o, warnings ++ errors⟩

end TargetRun

namespace Manifest

/-- How the files of a target are treated in a run. Only the first target that names a destination
makes a copy of it, so that the copy is what was there before the run. -/
def handling (manifest : Manifest) (dryRun : Bool) (before : List Target) (t : Target) : Handling :=
  { includes := manifest.includes
    backup := manifest.backup && !before.any (·.destination.same t.destination)
    dryRun }

/-- Runs the targets at some positions; `before` are those of the group that ran already. -/
def runMembers [Monad m] [Storage m] (manifest : Manifest) (dryRun : Bool)
    (before : List Target) : List Nat → m (List TargetRun)
  | [] => return []
  | index :: members =>
    match manifest.targets[index]? with
    | none => runMembers manifest dryRun before members
    | some t => do
      let outcome ← t.process manifest.options (manifest.handling dryRun before t)
      let runs ← runMembers manifest dryRun (before ++ [t]) members
      return .ofOutcome t index dryRun outcome :: runs

def runGroups [Monad m] [Storage m] (manifest : Manifest) (dryRun : Bool) :
    List Group → m (List TargetRun)
  | [] => return []
  | g :: groups => do
    let runs ← runMembers manifest dryRun [] g.members
    return runs ++ (← runGroups manifest dryRun groups)

def inManifestOrder (runs : List TargetRun) : List TargetRun :=
  runs.mergeSort fun a b => a.index ≤ b.index

def report (runs : List TargetRun) : BatchReport := ⟨(inManifestOrder runs).map TargetRun.report⟩

def run [Monad m] [Storage m] (manifest : Manifest) (dryRun : Bool) :
    m (BatchReport × List Notice) := do
  let runs ← runGroups manifest dryRun (Group.ofTargets manifest.targets)
  return (report runs, (inManifestOrder runs).flatMap TargetRun.notices)

end Manifest

end OutOfLine
