import OutOfLine.Discovery.Search

/-! The commands: their arguments, the JSON forms of what they report, and their runs. -/

namespace OutOfLine

inductive Json where
  | string (text : String)
  | number (n : Nat)
  | array (items : List Json)
  | object (fields : List (String × Json))

namespace Json

def hexDigit (n : Nat) : Char := if n < 10 then Char.ofNat (48 + n) else Char.ofNat (87 + n)

/-- A character in a string. Only quotes, backslashes and control characters are escaped. -/
def escaped (c : Char) : List Char :=
  if c = '"' then ['\\', '"']
  else if c = '\\' then ['\\', '\\']
  else if c = '\x08' then ['\\', 'b']
  else if c = '\t' then ['\\', 't']
  else if c = '\n' then ['\\', 'n']
  else if c = '\x0c' then ['\\', 'f']
  else if c = '\r' then ['\\', 'r']
  else if c < ' ' then ['\\', 'u', '0', '0', hexDigit (c.toNat / 16), hexDigit (c.toNat % 16)]
  else [c]

def quoted (text : String) : String := .ofList ('"' :: text.toList.flatMap escaped ++ ['"'])

def enclosed (opening closing : String) (depth : Nat) (parts : List String) : String :=
  if parts.isEmpty then opening ++ closing
  else
    let line (depth : Nat) := "\n" ++ "".pushn ' ' (2 * depth)
    opening ++ ",".intercalate (parts.map (line (depth + 1) ++ ·)) ++ line depth ++ closing

mutual

def textAt (depth : Nat) : Json → String
  | .string text => quoted text
  | .number n => toString n
  | .array items => enclosed "[" "]" depth (itemTexts (depth + 1) items)
  | .object fields => enclosed "\x7b" "\x7d" depth (fieldTexts (depth + 1) fields)

def itemTexts (depth : Nat) : List Json → List String
  | [] => []
  | item :: items => textAt depth item :: itemTexts depth items

def fieldTexts (depth : Nat) : List (String × Json) → List String
  | [] => []
  | (name, value) :: fields => (quoted name ++ ": " ++ textAt depth value) :: fieldTexts depth fields

end

def text (j : Json) : String := textAt 0 j

end Json

def Warning.json (w : Warning) : Json :=
  .object (("kind", .string w.kind) :: match w with
    | .methodNotFound name => [("name", .string name.text)]
    | .skippedMember name offset => [("name", .string name.text), ("offset", .number offset)]
    | .extraLabel label offset => [("marker", .string label.text), ("offset", .number offset)])

def TargetReport.json (r : TargetReport) : Json :=
  let error := match r.error with
    | none => []
    | some e =>
      [("error_kind", .string e.kind), ("error", .string e.message)] ++
        e.stage?.toList.map fun stage => ("stage", .string stage.label)
  .object ([("path", .string r.target.path.display),
      ("declaration", .string r.target.declaration.text),
      ("destination", .string r.target.destination.display),
      ("status", .string r.status.tag)] ++ error ++
    [("warnings", .array (r.warnings.map Warning.json)),
      ("interface_methods", .number r.interfaceCount),
      ("helpers", .number r.helperCount)])

def BatchReport.json (r : BatchReport) : Json :=
  .object [("targets", .array (r.targets.map TargetReport.json)),
    ("succeeded", .number r.succeeded), ("failed", .number r.failed)]

def Candidate.json (c : Candidate) : Json :=
  .object [("path", .string c.path.display), ("declaration", .string c.declaration.text),
    ("base", .string c.base.text), ("line", .number c.line)]

/-- What arguments a command takes. Names of flags and settings are written without their dashes. -/
structure ArgumentForm where
  required : Nat := 0
  allowed : Nat := required
  flags : List String := []
  settings : List String := []

structure Arguments where
  positional : List String := []
  flags : List String := []
  settings : List (String × String) := []

inductive Usage where
  | wrong
  | help
  | version
  deriving DecidableEq, Repr

namespace Arguments

def splitValue (text : List Char) : String × Option String :=
  let name := text.takeWhile (· != '=')
  match text.drop name.length with
  | [] => (.ofList name, none)
  | _ :: value => (.ofList name, some (.ofList value))

/-- Whether an argument can be a value: it does not begin with a dash, or is just one. -/
def isValue (argument : String) : Bool := argument == "-" || !argument.toList.head?.any (· == '-')

def addPositional (form : ArgumentForm) (done : Arguments) (argument : String) :
    Except Usage Arguments :=
  if done.positional.length < form.allowed
  then .ok { done with positional := done.positional ++ [argument] } else .error .wrong

def addFlag (done : Arguments) (name : String) : Except Usage Arguments :=
  if done.flags.contains name then .error .wrong
  else .ok { done with flags := done.flags ++ [name] }

def addSetting (done : Arguments) (name value : String) : Except Usage Arguments :=
  if (done.settings.lookup name).isSome then .error .wrong
  else .ok { done with settings := done.settings ++ [(name, value)] }

def readLiteral (form : ArgumentForm) (done : Arguments) (arguments : List String) :
    Except Usage Arguments :=
  arguments.foldlM (addPositional form) done

def readFrom (form : ArgumentForm) (done : Arguments) : List String → Except Usage Arguments
  | [] => .ok done
  | argument :: arguments =>
    match argument.toList with
    | ['-', '-'] => readLiteral form done arguments
    | '-' :: '-' :: long =>
      match splitValue long, arguments with
      | (name, some value), arguments =>
        if form.settings.contains name
        then addSetting done name value >>= fun done => readFrom form done arguments
        else .error .wrong
      | (name, none), arguments =>
        if name = "help" then .error .help
        else if form.flags.contains name
        then addFlag done name >>= fun done => readFrom form done arguments
        else if form.settings.contains name
        then match arguments with
          | [] => .error .wrong
          | value :: arguments =>
            if isValue value
            then addSetting done name value >>= fun done => readFrom form done arguments
            else .error .wrong
        else .error .wrong
    | '-' :: c :: _ => .error (if c = 'h' then .help else .wrong)
    | _ => addPositional form done argument >>= fun done => readFrom form done arguments

def read (form : ArgumentForm) (arguments : List String) : Except Usage Arguments := do
  let done ← readFrom form {} arguments
  if done.positional.length < form.required then .error .wrong else return done

end Arguments

inductive Shell where
  | bash
  | elvish
  | fish
  | powershell
  | zsh
  deriving DecidableEq, Repr

inductive Command where
  /-- Takes one declaration apart; without a manifest of its own it uses the one in the current
  directory, if there is one. -/
  | transform (target : Target) (backup : Bool) (manifest : Option Path)
  | batch (manifest : Path) (dryRun json : Bool)
  | discover (root : Path) (base : Bytes) (manifest json : Bool)
  | completions (shell : Shell)
  deriving DecidableEq, Repr

namespace Command

def defaultBase : String := "Module"

def names : List String := ["transform", "batch", "discover", "completions"]

def path (text : String) : Except Usage Path :=
  if text.isEmpty then .error .wrong else .ok ⟨utf8 text⟩

def readTransform (arguments : List String) : Except Usage Command := do
  let given ← Arguments.read { required := 3, flags := ["backup"], settings := ["config"] } arguments
  match given.positional with
  | [input, output, declaration] =>
    let target : Target := ⟨← path input, utf8 declaration, some (← path output)⟩
    let manifest ← (given.settings.lookup "config").mapM path
    return .transform target (given.flags.contains "backup") manifest
  | _ => .error .wrong

def readBatch (arguments : List String) : Except Usage Command := do
  let given ← Arguments.read { allowed := 1, flags := ["dry-run", "json"] } arguments
  let manifest ← given.positional.head?.mapM path
  return .batch (manifest.getD Manifest.defaultPath) (given.flags.contains "dry-run")
    (given.flags.contains "json")

def readDiscover (arguments : List String) : Except Usage Command := do
  let given ← Arguments.read
    { allowed := 1, flags := ["manifest", "json"], settings := ["base"] } arguments
  let root ← given.positional.head?.mapM path
  let base := (given.settings.lookup "base").getD defaultBase
  return .discover (root.getD Path.current) (utf8 base) (given.flags.contains "manifest")
    (given.flags.contains "json")

def shell? : String → Option Shell
  | "bash" => some .bash
  | "elvish" => some .elvish
  | "fish" => some .fish
  | "powershell" => some .powershell
  | "zsh" => some .zsh
  | _ => none

def readCompletions (arguments : List String) : Except Usage Command := do
  let given ← Arguments.read { required := 1 } arguments
  match given.positional.head?.bind shell? with
  | some shell => return .completions shell
  | none => .error .wrong

def read : List String → Except Usage Command
  | "transform" :: arguments => readTransform arguments
  | "batch" :: arguments => readBatch arguments
  | "discover" :: arguments => readDiscover arguments
  | "completions" :: arguments => readCompletions arguments
  | ["help"] => .error .help
  | ["help", name] => .error (if names.contains name || name = "help" then .help else .wrong)
  | "--version" :: _ => .error .version
  | "--help" :: _ => .error .help
  | argument :: _ =>
    match argument.toList with
    | '-' :: 'V' :: _ => .error .version
    | '-' :: 'h' :: _ => .error .help
    | _ => .error .wrong
  | [] => .error .wrong

end Command

structure Response where
  exit : Nat := 0
  out : String := ""
  err : String := ""
  notices : List Notice := []

namespace Response

def failure (message : String) : Response := { exit := 1, err := message ++ "\n" }

end Response

namespace Command

def loadManifest [Monad m] [Storage m] (path : Path) :
    m (List Notice × Except Response Manifest) := do
  let (notices, manifest) ← Manifest.load path
  return (notices, manifest.mapError fun e =>
    let message := e.message path
    .failure s!"error: config-error: {message}")

def manifestFor [Monad m] [Storage m] (named : Option Path) :
    m (List Notice × Except Response Manifest) := do
  match named with
  | some path => loadManifest path
  | none =>
    if ← Storage.isPresent Manifest.defaultPath then loadManifest Manifest.defaultPath
    else return ([], .ok {})

def runTransform [Monad m] [Storage m] (target : Target) (backup : Bool) (manifest : Manifest) :
    m Response := do
  let handling : Handling := { includes := manifest.includes, backup := backup || manifest.backup }
  let outcome ← target.process manifest.options handling
  let notices := outcome.warnings.map (Notice.warning target.declaration)
  match outcome.result with
  | .error e =>
    let diagnostic := e.diagnostic
    return { Response.failure s!"error: {diagnostic}" with notices }
  | .ok result =>
    let input := target.path.display
    let output := target.destination.display
    let interface := result.interfaceCount
    let helpers := result.helperCount
    return { err := s!"{input} -> {output} ({interface} interface, {helpers} helpers)\n", notices }

def padded (width : Nat) (text : String) : String := text.pushn ' ' (width - text.length)

def statusText : Status → String
  | .written => "ok"
  | .dryRun => "ok (dry run)"
  | .failed => "FAILED"

def reportLines (r : TargetReport) : List String :=
  let status := padded 12 (statusText r.status)
  let path := padded 60 r.target.path.display
  let declaration := r.target.declaration.text
  let error := r.error.toList.map TargetError.message
  let warnings := r.warnings.map fun w => "warning: " ++ w.message
  s!"{status} {path} {declaration}" :: (error ++ warnings).map (padded 13 "" ++ ·)

def unlines (lines : List String) : String := String.join (lines.map (· ++ "\n"))

def runBatch [Monad m] [Storage m] (path : Path) (dryRun json : Bool) (manifest : Manifest) :
    m Response := do
  if manifest.targets.isEmpty then
    let path := path.display
    return .failure s!"No [[targets]] in {path}"
  else
    let (report, notices) ← manifest.run dryRun
    let succeeded := report.succeeded
    let total := report.targets.length
    return {
      exit := if report.isSuccess then 0 else 1
      out := if json then report.json.text ++ "\n" else unlines (report.targets.flatMap reportLines)
      err := if json then "" else s!"\n{succeeded}/{total} targets succeeded\n"
      notices }

def candidateLine (c : Candidate) : String :=
  let path := c.path.display
  let line := c.line
  let declaration := c.declaration.text
  s!"{path}:{line}  {declaration}"

def runDiscover [Monad m] [Storage m] (root : Path) (base : Bytes) (manifest json : Bool) :
    m Response := do
  let found ← Discovery.search root base
  let candidates := found.candidates
  let notices := found.notices
  if manifest then return { out := Candidate.manifest root candidates, notices }
  else if json then
    return { out := (Json.array (candidates.map Candidate.json)).text ++ "\n", notices }
  else if candidates.isEmpty then
    let base := base.text
    let root := root.display
    return { Response.failure s!"No declarations deriving from '{base}' under {root}" with notices }
  else
    let count := candidates.length
    return { out := unlines (candidates.map candidateLine), err := s!"\n{count} declarations\n", notices }

def completionScript (shell : Shell) : String :=
  let names := " ".intercalate names
  match shell with
  | .bash => s!"complete -W '{names}' outline\n"
  | .zsh => s!"compctl -k '({names})' outline\n"
  | .fish => s!"complete -c outline -f -a '{names}'\n"
  | .elvish => s!"set edit:completion:arg-completer[outline] = \x7b|@words| put {names} \x7d\n"
  | .powershell =>
    s!"Register-ArgumentCompleter -Native -CommandName outline -ScriptBlock \x7b -split '{names}' \x7d\n"

def withManifest [Monad m] [Storage m] (named : Option Path) (run : Manifest → m Response) :
    m Response := do
  match ← manifestFor named with
  | (notices, .error response) => return { response with notices }
  | (notices, .ok manifest) =>
    let response ← run manifest
    return { response with notices := notices ++ response.notices }

def run [Monad m] [Storage m] : Command → m Response
  | .transform target backup manifest => withManifest manifest (runTransform target backup)
  | .batch manifest dryRun json => withManifest (some manifest) (runBatch manifest dryRun json)
  | .discover root base manifest json => runDiscover root base manifest json
  | .completions shell => return { out := completionScript shell }

def helpText : String :=
  unlines ["Turn inline module classes into out-of-line definitions", "",
    "outline transform <INPUT> <OUTPUT> <DECLARATION> [--backup] [--config <CONFIG>]",
    "outline batch [MANIFEST] [--dry-run] [--json]",
    "outline discover [ROOT] [--base <BASE>] [--manifest] [--json]",
    "outline completions <SHELL>"]

def usageResponse : Usage → Response
  | .wrong => { exit := 2, err := helpText }
  | .help => { out := helpText }
  | .version => { out := "outline 0.1.0\n" }

def respond [Monad m] [Storage m] (arguments : List String) : m Response :=
  match read arguments with
  | .ok command => run command
  | .error usage => return usageResponse usage

end Command

end OutOfLine
