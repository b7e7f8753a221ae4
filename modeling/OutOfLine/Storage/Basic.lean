import OutOfLine.Path

/-! What the library needs of a place where files are kept. -/

namespace OutOfLine

inductive FileError where
  | notFound
  | busy
  | alreadyThere
  | notDirectory
  | isDirectory
  | nameTooLong
  | notText
  | notFile
  | badName
  | other (message : String)
  deriving DecidableEq, Repr

def FileError.numbered (message : String) (number : Nat) : String :=
  s!"{message} (os error {number})"

def FileError.message : FileError → String
  | .notFound => numbered "No such file or directory" 2
  | .busy => numbered "Device or resource busy" 16
  | .alreadyThere => numbered "File exists" 17
  | .notDirectory => numbered "Not a directory" 20
  | .isDirectory => numbered "Is a directory" 21
  | .nameTooLong => numbered "File name too long" 36
  | .notText => "stream did not contain valid UTF-8"
  | .notFile => "the source path is neither a regular file nor a symlink to a regular file"
  | .badName => "file name contained an unexpected NUL byte"
  | .other message => message

inductive EntryKind where
  | file
  | directory
  | other
  deriving DecidableEq, Repr

/-- Operations on files. Each of them is one step that others see as a whole. -/
class Storage (m : Type → Type) where
  read : Path → m (Except FileError Bytes)
  kind? : Path → m (Option EntryKind)
  copy : (source target : Path) → m (Except FileError Unit)
  /-- Gives a file a new content at once, so that nobody sees a part of it. Missing directories on the
  way are made. -/
  replace : Path → Bytes → m (Except FileError Unit)
  /-- The names in a directory, with what they stand for; none if it cannot be read. -/
  entries : Path → m (List (Bytes × EntryKind))
  realPath? : Path → m (Option Path)

namespace Storage

def isPresent [Monad m] [Storage m] (p : Path) : m Bool := do
  return (← kind? p).isSome

def readText [Monad m] [Storage m] (p : Path) : m (Except FileError String) := do
  match ← read p with
  | .error e => return .error e
  | .ok content =>
    match content.decode? with
    | some text => return .ok text
    | none => return .error .notText

end Storage

end OutOfLine
