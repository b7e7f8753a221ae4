import OutOfLine.Batch
import OutOfLine.Discovery.Ignore

/-! Searching a directory and all below it for classes that derive publicly from a given base, and
the manifest that would take them apart. -/

namespace OutOfLine

/-- A declaration that derives from the class `base`. -/
structure Candidate where
  path : Path
  declaration : Bytes
  base : Bytes
  line : Nat
  deriving DecidableEq, Repr

namespace Candidate

def le (a b : Candidate) : Bool :=
  if a.path.same b.path then a.line ≤ b.line else a.path.le b.path

def pathIn (root : Path) (c : Candidate) : Path :=
  let path := (c.path.stripPrefix? root).getD c.path
  ⟨path.text.map fun b => if b = Byte.backslash then Byte.slash else b⟩

def manifest (root : Path) (candidates : List Candidate) : String :=
  Toml.writeTables "targets" (candidates.map fun c =>
    [("path", (c.pathIn root).display), ("declaration", c.declaration.text)])

end Candidate

structure Derived where
  name : Bytes
  line : Nat
  deriving DecidableEq, Repr

namespace Derived

/-- The lengths of the qualifiers that `text` may begin with, longest first, the last one being zero.
A qualifier is a run of identifiers and colons that ends in two colons and has more in front. -/
def qualifiers (text : Bytes) : List Nat :=
  let run := text.takeWhile fun b => Byte.isIdent b || b == Byte.colon
  ((List.range run.length).reverse.filter fun n =>
    0 < n && [Byte.colon, Byte.colon].isPrefixOf (run.drop n)).map (· + 2) ++ [0]

/-- The length of what `text` begins with, if that is blanks, a qualifier or none, and `base` up to a
word boundary. More blanks are preferred to fewer, and there is at least one. -/
def baseEnd? (base text : Bytes) : Option Nat :=
  ((List.range (text.takeWhile Byte.isWhite).length).reverse.map (· + 1)).findSome? fun blanks =>
    (qualifiers (text.drop blanks)).findSome? fun qualifier =>
      let start := blanks + qualifier
      let stop := start + base.length
      if base.isPrefixOf (text.drop start) &&
        isWordBoundary (text.take stop).getLast? (text.drop stop).head?
      then some stop else none

def afterBlanks? (text : Bytes) : Option Bytes :=
  if text.head?.any Byte.isWhite then some (Blank.trimAsciiStart text) else none

def skipWord (word text : Bytes) : Bytes :=
  ((Bytes.dropHead? word text).map Blank.trimAsciiStart).getD text

/-- Recognises the head of a class up to its base, and gives the name of the class. -/
def head (base : Bytes) : Recogniser Bytes := fun before text =>
  if isWordBoundary before text.head? then
    [utf8 "class", utf8 "struct"].findSome? fun keyword => do
      let rest ← afterBlanks? (← Bytes.dropHead? keyword text)
      let name := rest.takeWhile Byte.isIdent
      guard (name ≠ [])
      let rest := skipWord (utf8 "final") (Blank.trimAsciiStart (rest.drop name.length))
      let rest := Blank.trimAsciiStart (← Bytes.dropHead? [Byte.colon] rest)
      let rest :=
        ((Bytes.dropHead? (utf8 "virtual") rest).bind afterBlanks?).getD rest
      let rest ← Bytes.dropHead? (utf8 "public") rest
      let stop ← baseEnd? base rest
      return (text.length - rest.length + stop, name)
  else none

def hasBody (s : Scan) (offset : Nat) : Bool :=
  match s.findCode? Byte.openBrace offset s.length with
  | none => false
  | some opening => (s.findCode? Byte.semicolon offset opening).isNone

def all (source base : Bytes) : Except Fault (List Derived) := do
  let s ← Scan.of source
  let table := LineTable.of source
  let heads := (head base).matches (s.view ⟨0, s.length⟩)
  return (heads.filter fun found => hasBody s found.1.stop).map fun found =>
    ⟨found.2, (table.locate found.1.start).line⟩

end Derived

namespace IgnoreLevel

def rulesIn [Monad m] [Storage m] (directory : Path) (name : String) : m (List IgnoreRule) := do
  match ← Storage.read (directory.join ⟨utf8 name⟩) with
  | .ok content => return IgnoreRule.ofFile content
  | .error _ => return []

def ofDirectory [Monad m] [Storage m] (directory : Path) (names : List Bytes) :
    m IgnoreLevel := do
  let rules ← rulesIn directory ".ignore"
  let repositoryRules ← rulesIn directory ".gitignore"
  let excludeRules ← rulesIn directory ".git/info/exclude"
  let isRepository ← Storage.isPresent (directory.join ⟨utf8 ".git"⟩)
  return { names, rules, repositoryRules, excludeRules, isRepository }

/-- The levels of the directories above one with the absolute path `/` and `above`, nearest first.
The names of that path are given backwards, and `names` lead on to the directory searched. -/
def above [Monad m] [Storage m] (names : List Bytes) : List Bytes → m (List IgnoreLevel)
  | [] => return []
  | name :: names' => do
    let directory : Path := ⟨Byte.slash :: Path.joinParts names'.reverse⟩
    let level ← ofDirectory directory (name :: names)
    return level :: (← above (name :: names) names')

def ofRoot [Monad m] [Storage m] (root : Path) : m (List IgnoreLevel) := do
  let level ← ofDirectory root []
  match ← Storage.realPath? root with
  | none => return [level]
  | some path => return level :: (← above [] (path.inner.filter (· ≠ [])).reverse)

end IgnoreLevel

structure Discovery where
  candidates : List Candidate
  notices : List Notice

namespace Discovery

def maxDepth : Nat := 4096

def extensions : List Bytes := ["cpp", "cc", "cxx", "c", "hpp", "h"].map utf8

/-- The files in a directory and below that no level leaves out; `fuel` bounds the depth. -/
def filesBelow [Monad m] [Storage m] : (fuel : Nat) → Path → List IgnoreLevel → m (List Path)
  | 0, _, _ => return []
  | fuel + 1, directory, levels => do
    let entries ← Storage.entries directory
    let kept := entries.filter fun e => !IgnoreLevel.hides levels e.1 (e.2 == .directory)
    let found ← kept.mapM fun (name, kind) => do
      let path := directory.join ⟨name⟩
      match kind with
      | .file => return [path]
      | .directory =>
        let level ← IgnoreLevel.ofDirectory path []
        filesBelow fuel path (level :: levels.map (·.enter name))
      | .other => return []
    return found.flatten

/-- The files to search. A root that is a file is always one of them, and the root `-` stands for the
standard input, in which no file is. -/
def files [Monad m] [Storage m] (root : Path) : m (List Path) := do
  if root.text = [Byte.minus] then return []
  else match ← Storage.kind? root with
    | some .file => return [root]
    | some .directory => filesBelow maxDepth root (← IgnoreLevel.ofRoot root)
    | _ => return []

def inText (path : Path) (base content : Bytes) : Discovery :=
  match Derived.all content base with
  | .ok found => ⟨found.map fun d => ⟨path, d.name, base, d.line⟩, []⟩
  | .error fault => ⟨[], [.skipped path fault]⟩

/-- The candidates in a file. A file that cannot be read, or holds no text, has none. -/
def inFile [Monad m] [Storage m] (base : Bytes) (path : Path) : m Discovery := do
  match ← Storage.readText path with
  | .ok text => return inText path base (utf8 text)
  | .error _ => return ⟨[], []⟩

def search [Monad m] [Storage m] (root : Path) (base : Bytes) : m Discovery := do
  let files := (← files root).filter fun path => path.extension?.any extensions.contains
  let found ← files.mapM (inFile base)
  return ⟨(found.flatMap candidates).mergeSort Candidate.le, found.flatMap notices⟩

end Discovery

end OutOfLine
