import OutOfLine.Storage.Basic

/-! Files and directories kept in memory. A path is followed part by part, and every part before the
last one has to lead to a directory. -/
namespace OutOfLine

abbrev Place := List Bytes

inductive Entry where
  | file (content : Bytes)
  | directory
  deriving DecidableEq, Repr

namespace Entry

def kind : Entry → EntryKind
  | .file _ => .file
  | .directory => .directory

end Entry

structure Disk where
  entries : List (Place × Entry) := []
  current : Place := []
  deriving DecidableEq, Repr

namespace Disk

def maxName : Nat := 255

def pathLimit : Nat := 4096

def entry? (d : Disk) (place : Place) : Option Entry :=
  if place = [] then some .directory else d.entries.lookup place

def put (d : Disk) (place : Place) (entry : Entry) : Disk :=
  if (d.entries.lookup place).isSome
  then { d with entries := d.entries.map fun e => if e.1 = place then (place, entry) else e }
  else { d with entries := d.entries ++ [(place, entry)] }

def remove (d : Disk) (place : Place) : Disk :=
  { d with entries := d.entries.filter (!place.isPrefixOf ·.1) }

def gained (before after : Disk) : List (Place × Entry) :=
  after.entries.filter (!before.entries.contains ·)

def lost (before after : Disk) : List (Place × EntryKind) :=
  (before.entries.map fun e => (e.1, e.2.kind)).filter fun e =>
    !(after.entries.any fun other => (other.1, other.2.kind) == e)

/-- The disk with a directory at every place from `above` to that with the further `names`. -/
def putDirectories (d : Disk) (above : Place) : (names : List Bytes) → Disk
  | [] => d
  | name :: names =>
    let place := above ++ [name]
    putDirectories (if (d.entry? place).isSome then d else d.put place .directory) place names

def store (d : Disk) (p : Path) (entry : Entry) : Disk :=
  let names := (Path.parts p.text).filter (· ≠ [])
  (d.putDirectories d.current names.dropLast).put (d.current ++ names) entry

def step (d : Disk) (place : Place) (part : Bytes) : Except FileError Place :=
  match d.entry? place with
  | none => .error .notFound
  | some (.file _) => .error .notDirectory
  | some .directory =>
    if part = [] ∨ part = Path.dot then .ok place
    else if part = Path.dotDot then .ok place.dropLast
    else if maxName < part.length then .error .nameTooLong
    else .ok (place ++ [part])

def walk (d : Disk) (place : Place) (parts : List Bytes) : Except FileError Place :=
  parts.foldlM d.step place

def start (d : Disk) (p : Path) : Except FileError Place :=
  if p.text.contains 0 then .error .badName
  else if p.text = [] then .error .notFound
  else if pathLimit ≤ p.text.length then .error .nameTooLong
  else .ok (if p.isAbsolute then [] else d.current)

def find (d : Disk) (p : Path) : Except FileError (Place × Entry) := do
  let place ← d.walk (← d.start p) (Path.parts p.text)
  match d.entry? place with
  | none => .error .notFound
  | some entry => return (place, entry)

structure Slot where
  /-- The last name, with the place of the directory in front; none if the path does not end in a
  name. -/
  place? : Option Place
  asDirectory : Bool

def slot (d : Disk) (p : Path) : Except FileError Slot := do
  let start ← d.start p
  let parts := Path.parts p.text
  let named := (parts.reverse.dropWhile (· = [])).reverse
  let directory ← d.walk start (named.dropLast ++ [[]])
  match named.getLast? with
  | none => return ⟨none, false⟩
  | some last =>
    if last = Path.dot ∨ last = Path.dotDot then return ⟨none, false⟩
    else return ⟨some (← d.step directory last), named.length < parts.length⟩

def makeDirectory (d : Disk) (p : Path) : Except FileError Disk := do
  match (← d.slot p).place? with
  | none => .error .alreadyThere
  | some place =>
    if (d.entry? place).isSome then .error .alreadyThere else return d.put place .directory

def isDirectory (d : Disk) (p : Path) : Bool :=
  match d.find p with
  | .ok (_, .directory) => true
  | _ => false

def ensureDirectory (d : Disk) (p : Path) : Except FileError Unit × Disk :=
  match d.makeDirectory p with
  | .ok d => (.ok (), d)
  | .error e => (if d.isDirectory p then .ok () else .error e, d)

/-- The directory at the first of some paths, each of which lies in the next one. Missing ones are
made, and stay if a later one cannot be made. -/
def ensureDirectories (d : Disk) : List Path → Except FileError Unit × Disk
  | [] => (.ok (), d)
  | p :: above =>
    match d.makeDirectory p with
    | .error .notFound =>
      match ensureDirectories d above with
      | (.ok (), d) => ensureDirectory d p
      | failed => failed
    | _ => ensureDirectory d p

/-- A path and those of the directories above it, as far as its text names them; `fuel` bounds their
number. -/
def ancestorsFrom : (fuel : Nat) → Path → List Path
  | 0, _ => []
  | fuel + 1, p =>
    if p.text = [] then [] else p :: (p.parent?.map (ancestorsFrom fuel)).getD []

def putFile (d : Disk) (p : Path) (content : Bytes) : Except FileError Disk := do
  let slot ← d.slot p
  match slot.place? with
  | none => .error .busy
  | some place =>
    if slot.asDirectory then .error .notDirectory
    else match d.entry? place with
      | some .directory => .error .isDirectory
      | _ => return d.put place (.file content)

def read (d : Disk) (p : Path) : Except FileError Bytes := do
  match ← d.find p with
  | (_, .file content) => return content
  | (_, .directory) => .error .isDirectory

def copy (d : Disk) (source target : Path) : Except FileError Disk := do
  match ← d.find source with
  | (_, .directory) => .error .notFile
  | (_, .file content) => d.putFile target content

def replace (d : Disk) (p : Path) (content : Bytes) : Except FileError Unit × Disk :=
  let directory := p.directory
  match d.ensureDirectories (ancestorsFrom directory.text.length directory) with
  | (.error e, d) => (.error e, d)
  | (.ok (), d) =>
    match d.putFile p content with
    | .ok d => (.ok (), d)
    | .error e => (.error e, d)

def children (d : Disk) (place : Place) : List (Bytes × EntryKind) :=
  d.entries.filterMap fun e =>
    match e.1.getLast? with
    | some name => if e.1.dropLast = place then some (name, e.2.kind) else none
    | none => none

def absolute (place : Place) : Path :=
  if place = [] then ⟨[Byte.slash]⟩ else ⟨place.flatMap (Byte.slash :: ·)⟩

/-- The result of a change that either happens as a whole or not at all. -/
def changing (f : Disk → Except FileError Disk) : StateM Disk (Except FileError Unit) := fun d =>
  match f d with
  | .ok d => (.ok (), d)
  | .error e => (.error e, d)

instance : Storage (StateM Disk) where
  read p := fun d => (d.read p, d)
  kind? p := fun d => ((d.find p).toOption.map (·.2.kind), d)
  copy source target := changing (·.copy source target)
  replace p content := fun d => d.replace p content
  entries p := fun d =>
    (match d.find p with
      | .ok (place, .directory) => d.children place
      | _ => [], d)
  realPath? p := fun d => ((d.find p).toOption.map fun found => absolute found.1, d)

end Disk
end OutOfLine
