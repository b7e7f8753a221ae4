import OutOfLine.Path

/-! Ignore rules, their globs, and the levels of directories that they come from. No wildcard
matches a slash, except for the double star that stands between slashes. -/

namespace OutOfLine

inductive GlobItem where
  | literal (b : Byte)
  | any
  | star
  | set (negated : Bool) (ranges : List (Byte × Byte))
  | leading
  | between
  | trailing
  | choice (branches : List (List GlobItem))

abbrev Glob := List GlobItem

def afterSlashes : Bytes → List Bytes
  | [] => []
  | b :: text => if b = Byte.slash then text :: afterSlashes text else afterSlashes text

def withoutNames : Bytes → List Bytes
  | [] => [[]]
  | b :: text => (b :: text) :: (if b = Byte.slash then [] else withoutNames text)

def tails : Bytes → List Bytes
  | [] => [[]]
  | b :: text => (b :: text) :: tails text

namespace GlobItem

def afterByte (admits : Byte → Bool) : Bytes → List Bytes
  | b :: text => if admits b then [text] else []
  | [] => []

def inRanges (ranges : List (Byte × Byte)) (b : Byte) : Bool :=
  ranges.any fun range => range.1 ≤ b && b ≤ range.2

mutual

def rests (text : Bytes) : GlobItem → List Bytes
  | .literal b => afterByte (· == b) text
  | .any => afterByte (· != Byte.slash) text
  | .star => withoutNames text
  | .set negated ranges => afterByte (inRanges ranges · != negated) text
  | .leading => text :: afterSlashes text
  | .between => (afterByte (· == Byte.slash) text).flatMap fun rest => rest :: afterSlashes rest
  | .trailing => (afterByte (· == Byte.slash) text).flatMap tails
  | .choice [] => [text]
  | .choice (branch :: branches) => restsOfBranches text (branch :: branches)

def restsOfItems (texts : List Bytes) : List GlobItem → List Bytes
  | [] => texts
  | item :: items => restsOfItems (texts.flatMap fun text => rests text item).eraseDups items

def restsOfBranches (text : Bytes) : List (List GlobItem) → List Bytes
  | [] => []
  | branch :: branches => restsOfItems [text] branch ++ restsOfBranches text branches

end

end GlobItem

namespace Glob

/-- Whether a glob matches a whole text. A double star alone matches everything. -/
def matches? (g : Glob) (text : Bytes) : Bool :=
  match g with
  | [.leading] => true
  | _ => (GlobItem.restsOfItems [text] g).any List.isEmpty

structure Frame where
  before : Glob
  branches : List Glob

structure Reading where
  frames : List Frame := []
  items : Glob := []
  last : Option Byte := none
  /-- Whether a bracket was found to have no end. Further ones then stand for themselves. -/
  unclosed : Bool := false

namespace Reading

def push (r : Reading) (items : Glob) (last : Byte) : Reading :=
  { r with items := items ++ r.items, last := some last }

def isBlank (branch : Glob) : Bool :=
  branch.all fun
    | .choice [] => true
    | _ => false

/-- The state after a closing brace, if one is open. Empty alternatives do not count. -/
def close? (r : Reading) : Option Reading :=
  match r.frames with
  | [] => none
  | frame :: frames =>
    let branches := ((r.items :: frame.branches).reverse.map List.reverse).filter (!isBlank ·)
    some { r with
      frames := frames, items := .choice branches :: frame.before, last := some Byte.closeBrace }

def doubleStar (r : Reading) (rest : Bytes) : Reading × Bytes :=
  let plain := (r.push [.star, .star] Byte.star, rest)
  let merged (item : GlobItem) :=
    match r.items with
    | .leading :: items => .leading :: items
    | .trailing :: items => .trailing :: items
    | _ :: items => item :: items
    | [] => [item]
  if r.items.isEmpty then
    match rest with
    | [] => (r.push [.leading] Byte.star, [])
    | b :: others => if b = Byte.slash then (r.push [.leading] b, others) else plain
  else if r.last ≠ some Byte.slash then plain
  else match rest with
    | [] => ({ r with items := merged .trailing, last := some Byte.star }, [])
    | b :: others =>
      if b = Byte.slash then ({ r with items := merged .between, last := some b }, others)
      else if !r.frames.isEmpty && (b == Byte.comma || b == Byte.closeBrace)
      then ({ r with items := merged .trailing, last := some Byte.star }, rest)
      else plain

end Reading

/-- The ranges of a set between brackets, without their negation, and what follows the closing
bracket. The ranges so far are given backwards; `first` tells that nothing was read, and `dashed` that
a dash waits for the end of a range. A set without an end gives nothing, and a range that ends before
it starts is an error. -/
def ranges (first dashed : Bool) (done : List (Byte × Byte)) :
    Bytes → Except Unit (Option (List (Byte × Byte) × Bytes))
  | [] => .ok none
  | b :: text =>
    if b = Byte.closeBracket ∧ !first then
      .ok (some ((if dashed then (Byte.minus, Byte.minus) :: done else done).reverse, text))
    else if b = Byte.minus ∧ !first ∧ !dashed then ranges false true done text
    else match dashed, done with
      | true, (low, _) :: done =>
        if b < low then .error () else ranges false false ((low, b) :: done) text
      | _, _ => ranges false false ((b, b) :: done) text

def set? (text : Bytes) : Except Unit (Option (GlobItem × Bytes)) := do
  let negated := text.head? = some 0x21 ∨ text.head? = some 0x5e
  match ← ranges true false [] (if negated then text.drop 1 else text) with
  | none => return none
  | some (ranges, rest) => return some (.set negated ranges, rest)

/-- Reads the rest of a glob; `fuel` bounds the number of its bytes. -/
def readFrom : (fuel : Nat) → Reading → Bytes → Option Glob
  | 0, _, _ => none
  | _, r, [] => if r.frames.isEmpty then some r.items.reverse else none
  | fuel + 1, r, b :: text =>
    if b = 0x3f then readFrom fuel (r.push [.any] b) text
    else if b = Byte.star then
      match text with
      | c :: rest =>
        if c = Byte.star then
          let (r, rest) := r.doubleStar rest
          readFrom fuel r rest
        else readFrom fuel (r.push [.star] b) text
      | [] => readFrom fuel (r.push [.star] b) text
    else if b = Byte.openBracket ∧ !r.unclosed then
      match set? text with
      | .error _ => none
      | .ok none => readFrom fuel { r.push [.literal b] b with unclosed := true } text
      | .ok (some (item, rest)) => readFrom fuel (r.push [item] Byte.closeBracket) rest
    else if b = Byte.openBrace then
      readFrom fuel { r with frames := ⟨r.items, []⟩ :: r.frames, items := [], last := some b } text
    else if b = Byte.closeBrace then r.close?.bind fun r => readFrom fuel r text
    else if b = Byte.comma then
      match r.frames with
      | [] => readFrom fuel (r.push [.literal b] b) text
      | frame :: frames =>
        let frame := { frame with branches := r.items :: frame.branches }
        readFrom fuel { r with frames := frame :: frames, items := [], last := some b } text
    else if b = Byte.backslash then
      match text with
      | [] => none
      | c :: rest => readFrom fuel (r.push [.literal c] c) rest
    else readFrom fuel (r.push [.literal b] b) text

def read? (text : Bytes) : Option Glob := readFrom (text.length + 1) {} text

end Glob

structure IgnoreRule where
  glob : Glob
  keeps : Bool
  directoriesOnly : Bool

namespace IgnoreRule

def strip (head text : Bytes) : Bool × Bytes :=
  match Bytes.dropHead? head text with
  | some rest => (true, rest)
  | none => (false, text)

/-- The glob of a rule. One without a slash matches at any depth, and a double star after a slash at the
end does not match the directory itself. -/
def globText (anchored : Bool) (text : Bytes) : Bytes :=
  let stars := utf8 "**"
  let deep :=
    if anchored || text.contains Byte.slash || text == stars then text
    else stars ++ Byte.slash :: text
  if (Byte.slash :: stars).isSuffixOf deep then deep ++ utf8 "/*" else deep

/-- The rule on a line. A comment, an empty line and a line with a malformed glob have none. -/
def ofLine? (line : Bytes) : Option IgnoreRule := do
  guard (line.head? ≠ some Byte.hash)
  let line := if (utf8 "\\ ").isSuffixOf line then line else Blank.trimEnd line
  guard (line ≠ [])
  let isEscaped := (utf8 "\\!").isPrefixOf line || (utf8 "\\#").isPrefixOf line
  let (keeps, line) := if isEscaped then (false, line.drop 1) else strip (utf8 "!") line
  let (anchored, line) := if isEscaped then (false, line) else strip [Byte.slash] line
  let directoriesOnly := line.getLast? == some Byte.slash
  let line :=
    if !directoriesOnly then line
    else if line.dropLast.getLast? = some Byte.backslash then line.dropLast.dropLast
    else line.dropLast
  return ⟨← Glob.read? (globText anchored line), keeps, directoriesOnly⟩

def lines (content : Bytes) : List Bytes :=
  ((Bytes.splitOn [Byte.newline] content).takeWhile (·.decode?.isSome)).map fun line =>
    if line.getLast? = some Byte.carriageReturn then line.dropLast else line

/-- The rules of an ignore file. A byte order mark in front is no part of it. -/
def ofFile (content : Bytes) : List IgnoreRule :=
  ((lines (strip (utf8 "\ufeff") content).2).filterMap ofLine?)

def verdict? (rules : List IgnoreRule) (path : Bytes) (isDirectory : Bool) : Option Bool :=
  (rules.reverse.find? fun rule =>
    (isDirectory || !rule.directoriesOnly) && rule.glob.matches? path).map keeps

end IgnoreRule

structure IgnoreLevel where
  names : List Bytes := []
  rules : List IgnoreRule := []
  /-- Rules that count only inside a repository. -/
  repositoryRules : List IgnoreRule := []
  /-- Rules that the repository keeps apart from its files. -/
  excludeRules : List IgnoreRule := []
  isRepository : Bool := false

namespace IgnoreLevel

def enter (name : Bytes) (level : IgnoreLevel) : IgnoreLevel :=
  { level with names := level.names ++ [name] }

/-- The verdict of some levels, nearest first: that of the first one that has any. -/
def verdictBy? (rules : IgnoreLevel → List IgnoreRule) (levels : List IgnoreLevel) (name : Bytes)
    (isDirectory : Bool) : Option Bool :=
  levels.findSome? fun level =>
    IgnoreRule.verdict? (rules level) (Path.joinParts (level.names ++ [name])) isDirectory

def inRepository (levels : List IgnoreLevel) : List IgnoreLevel :=
  match levels.findIdx? isRepository with
  | some top => levels.take (top + 1)
  | none => []

/-- Whether an entry is left out. Hidden entries are, unless a rule keeps them. -/
def hides (levels : List IgnoreLevel) (name : Bytes) (isDirectory : Bool) : Bool :=
  let inside := inRepository levels
  let verdict := (verdictBy? rules levels name isDirectory).or
    ((verdictBy? repositoryRules inside name isDirectory).or
      (verdictBy? excludeRules inside name isDirectory))
  match verdict with
  | some keeps => !keeps
  | none => Path.dot.isPrefixOf name

end IgnoreLevel

end OutOfLine
