import OutOfLine.Member
import OutOfLine.Storage.Basic
import OutOfLine.Toml.Document

/-! Manifests: which declarations of which files to take apart, and where the results go. Every
key may be left out, and an unknown one is only reported. -/

namespace OutOfLine

inductive Expected where
  | strings
  | string
  | boolean
  | substitutions
  | tables
  deriving DecidableEq, Repr

def Expected.text : Expected → String
  | .strings => "an array of strings"
  | .string => "a string"
  | .boolean => "a boolean"
  | .substitutions => "an array of \x7b from, to \x7d tables"
  | .tables => "an array of tables"

inductive ManifestError where
  | unreadable (cause : FileError)
  | malformed (cause : Toml.ReadError)
  | wrongValue (key : String) (expected : Expected)
  | missingField (index : Nat) (field : String)
  /-- Two targets write one file, and one of them does not read it. -/
  | sharedDestination (destination : Path) (first second : Nat)
  deriving DecidableEq, Repr

def ManifestError.message (origin : Path) : ManifestError → String
  | .unreadable cause =>
    let origin := origin.display
    let cause := cause.message
    s!"failed to read {origin}: {cause}"
  | .malformed cause =>
    let origin := origin.display
    let cause := cause.message
    s!"failed to parse {origin}: {cause}"
  | .wrongValue key expected =>
    let origin := origin.display
    let expected := expected.text
    s!"{origin}: `{key}` must be {expected}"
  | .missingField index field =>
    let origin := origin.display
    s!"{origin}: target #{index} is missing `{field}`"
  | .sharedDestination destination first second =>
    let origin := origin.display
    let destination := destination.display
    s!"{origin}: targets #{first} and #{second} both write {destination} from different inputs"

structure Target where
  path : Path
  declaration : Bytes
  output : Option Path := none
  deriving DecidableEq, Repr

def Target.destination (t : Target) : Path := t.output.getD t.path

/-- Whether two targets write one file, and one of them does not read it: it would overwrite what
the other one wrote. -/
def Target.clashes (a b : Target) : Bool :=
  a.destination.same b.destination &&
    (!a.path.same b.destination || !b.path.same b.destination)

structure Manifest where
  options : Options := {}
  targets : List Target := []
  backup : Bool := false
  includes : List Substitution := []
  deriving DecidableEq, Repr

namespace Target

/-- The first clash among `targets`, by its later target and then by its earlier one; `earlier` are
the targets before them. -/
def clashFrom? (earlier : List Target) : List Target → Option ManifestError
  | [] => none
  | target :: targets =>
    match earlier.findIdx? (·.clashes target) with
    | some first => some (.sharedDestination target.destination first earlier.length)
    | none => clashFrom? (earlier ++ [target]) targets

def clash? (targets : List Target) : Option ManifestError := clashFrom? [] targets

end Target

namespace Key

/-- The known keys. Among equally close ones the first is suggested. -/
def known : List String :=
  ["declaration_keywords", "interface_methods", "skip_methods", "context_markers",
    "capture_rewrites", "helper_qualifier", "required_namespaces", "placeholder_comment",
    "helper_banner", "backup", "include_rewrites", "targets"]

def tolerance : Nat := 3

def closest (key : String) : List String → Option (String × Nat)
  | [] => none
  | candidate :: candidates =>
    let distance := Distance.edits key.toList candidate.toList
    match closest key candidates with
    | some (other, best) =>
      if best < distance then some (other, best) else some (candidate, distance)
    | none => some (candidate, distance)

/-- The known key that `key` may stand for. -/
def suggestion? (key : String) : Option String :=
  match closest key known with
  | some (candidate, distance) => if distance ≤ tolerance then some candidate else none
  | none => none

def unknownMessage (origin : Path) (suggestion : Option String) : String :=
  let origin := origin.display
  match suggestion with
  | some suggestion => s!"Unknown key in {origin}, did you mean '{suggestion}'?"
  | none =>
    let keys := ", ".intercalate known
    s!"Unknown key in {origin} (known keys: {keys})"

end Key

namespace Manifest

open Toml (Table Value)

def field (table : Table) (key : String) (expected : Expected) (read : Value → Option α)
    (default : α) : Except ManifestError α :=
  match table.get? key with
  | none => .ok default
  | some v =>
    match read v with
    | some a => .ok a
    | none => .error (.wrongValue key expected)

def strings? (v : Value) : Option (List Bytes) := do
  (← v.array?).mapM fun item => item.string?.map utf8

def string? (v : Value) : Option Bytes := v.string?.map utf8

def substitutions? (v : Value) : Option (List Substitution) := do
  (← v.array?).mapM fun item => do
    return ⟨utf8 (← item.stringAt? "from"), utf8 (← item.stringAt? "to")⟩

/-- The options in a table, in the order in which their values are checked. -/
def readOptions (table : Table) : Except ManifestError Options := do
  let d : Options := {}
  let keywords ← field table "declaration_keywords" .strings strings? d.keywords
  let interfaceMethods ← field table "interface_methods" .strings strings? d.interfaceMethods
  let skippedMethods ← field table "skip_methods" .strings strings? d.skippedMethods
  let markers ← field table "context_markers" .strings strings? d.markers
  let captures ← field table "capture_rewrites" .substitutions substitutions? d.captures
  let qualifier ← field table "helper_qualifier" .string string? d.qualifier
  let namespaces ← field table "required_namespaces" .strings strings? d.namespaces
  let placeholder ← field table "placeholder_comment" .string string? d.placeholder
  let banner ← field table "helper_banner" .string string? d.banner
  return ⟨keywords, interfaceMethods, skippedMethods, markers, captures, qualifier, namespaces,
    placeholder, banner⟩

def required (index : Nat) (v : Value) (key : String) : Except ManifestError String :=
  match v.stringAt? key with
  | some s => .ok s
  | none => .error (.missingField index key)

def readTarget (base : Path) (index : Nat) (v : Value) : Except ManifestError Target := do
  match v.table? with
  | none => .error (.wrongValue "targets" .tables)
  | some table =>
    let path ← required index v "path"
    let declaration ← required index v "declaration"
    let target : Target := { path := base.join ⟨utf8 path⟩, declaration := utf8 declaration }
    match table.get? "output" with
    | none => return target
    | some (.string output) => return { target with output := some (base.join ⟨utf8 output⟩) }
    | some _ => .error (.wrongValue "targets.output" .string)

def readTargets (base : Path) (index : Nat) : List Value → Except ManifestError (List Target)
  | [] => .ok []
  | v :: vs => do
    let target ← readTarget base index v
    let targets ← readTargets base (index + 1) vs
    return target :: targets

def ofTable (base : Path) (table : Table) : Except ManifestError Manifest := do
  let options ← readOptions table
  let backup ← field table "backup" .boolean Value.boolean? false
  let includes ← field table "include_rewrites" .substitutions substitutions? []
  let entries ← field table "targets" .tables Value.array? []
  let targets ← readTargets base 0 entries
  match Target.clash? targets with
  | some clash => .error clash
  | none => return ⟨options, targets, backup, includes⟩

def unknownKeys (table : Table) : List String := table.sortedKeys.filter (!Key.known.contains ·)

/-- The manifest in a text, its paths seen from `base`, and the unknown keys of the text. -/
def read (base : Path) (text : String) : List String × Except ManifestError Manifest :=
  match Toml.read text with
  | .error cause => ([], .error (.malformed cause))
  | .ok table => (unknownKeys table, ofTable base table)

end Manifest

end OutOfLine
