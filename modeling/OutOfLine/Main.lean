import OutOfLine.Command.Run

/-! The program: commands on the files of the system. -/
namespace OutOfLine.Native

def fileError : IO.Error → FileError
  | .noFileOrDirectory .. => .notFound
  | .alreadyExists .. => .alreadyThere
  | .resourceBusy .. => .busy
  | .inappropriateType _ code details =>
    if code = 20 then .notDirectory else if code = 21 then .isDirectory else .other details
  | e => .other (toString e)

def attempt (action : IO α) : IO (Except FileError α) := do
  match ← action.toBaseIO with
  | .ok a => return .ok a
  | .error e => return .error (fileError e)

def kindOf : IO.FS.FileType → EntryKind
  | .file => .file
  | .dir => .directory
  | _ => .other

def kind? (p : Path) : IO (Option EntryKind) := do
  match ← (System.mkFilePath [p.display]).metadata.toBaseIO with
  | .ok metadata => return some (kindOf metadata.type)
  | .error _ => return none

def copy (source target : Path) : IO (Except FileError Unit) := do
  match ← kind? source with
  | some .file => attempt do
    IO.FS.writeBinFile target.display (← IO.FS.readBinFile source.display)
  | _ => return .error .notFile

/-- Writes a new file beside the old one, and then renames it. -/
def replace (p : Path) (content : Bytes) : IO (Except FileError Unit) := do
  let directory := p.directory
  let number ← IO.rand 0 999999999
  let new := (directory.join ⟨utf8 s!".tmp{number}"⟩).display
  attempt do
    IO.FS.createDirAll directory.display
    let file ← IO.FS.Handle.mk new .writeNew
    try
      file.write ⟨content.toArray⟩
      file.flush
      IO.FS.rename new p.display
    catch e =>
      IO.FS.removeFile new
      throw e

def entries (p : Path) : IO (List (Bytes × EntryKind)) := do
  match ← (System.mkFilePath [p.display]).readDir.toBaseIO with
  | .error _ => return []
  | .ok found => found.toList.filterMapM fun entry => do
    match ← entry.path.symlinkMetadata.toBaseIO with
    | .ok metadata => return some (utf8 entry.fileName, kindOf metadata.type)
    | .error _ => return none

instance : Storage IO where
  read p := attempt do return (← IO.FS.readBinFile p.display).toList
  kind? := kind?
  copy := copy
  replace := replace
  entries := entries
  realPath? p := do
    match ← (IO.FS.realPath p.display).toBaseIO with
    | .ok found => return some ⟨utf8 found.toString⟩
    | .error _ => return none

def noticeLine (n : Notice) : String :=
  let message := n.message
  if n.isError then s!"ERROR {message}" else s!"WARN {message}"

end OutOfLine.Native

def main (arguments : List String) : IO UInt32 := do
  let response ← OutOfLine.Command.respond arguments
  for notice in response.notices do
    IO.eprintln (OutOfLine.Native.noticeLine notice)
  IO.print response.out
  IO.eprint response.err
  return response.exit.toUInt32
