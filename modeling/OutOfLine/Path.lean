import OutOfLine.Text.Search

/-! File paths. A path is kept as it was written; two paths name the same file when their
components agree, so that `a//b`, `a/./b` and `a/b/` are one path, while a leading `./` and every
`..` count. -/

namespace OutOfLine

structure Path where
  text : Bytes
  deriving DecidableEq, Repr

namespace Path

inductive Component where
  | root
  | current
  | parent
  | name (text : Bytes)
  deriving DecidableEq, Repr

def dot : Bytes := utf8 "."

def dotDot : Bytes := utf8 ".."

def parts : Bytes → List Bytes
  | [] => [[]]
  | b :: rest =>
    if b = Byte.slash then [] :: parts rest
    else match parts rest with
      | [] => [[b]]
      | part :: others => (b :: part) :: others

def joinParts : List Bytes → Bytes
  | [] => []
  | [part] => part
  | part :: others => part ++ Byte.slash :: joinParts others

def isSignificant (part : Bytes) : Bool := part ≠ [] && part ≠ dot

def component? (part : Bytes) : Option Component :=
  if !isSignificant part then none else if part = dotDot then some .parent else some (.name part)

def start? (text : Bytes) : Option Component :=
  if text.head? = some Byte.slash then some .root
  else if (parts text).head? = some dot then some .current else none

def inner (p : Path) : List Bytes :=
  parts (if (start? p.text).isSome then p.text.drop 1 else p.text)

def components (p : Path) : List Component :=
  (start? p.text).toList ++ p.inner.filterMap component?

/-- Whether two paths have the same components. -/
def same (p q : Path) : Bool := p.components == q.components

@[simp] theorem same_iff {p q : Path} : p.same q = true ↔ p.components = q.components := by
  simp [same]

def isAbsolute (p : Path) : Bool := p.text.head? == some Byte.slash

def current : Path := ⟨dot⟩

/-- The path `q` as seen from `p`: an absolute one as it is, any other one after `p` and a slash. -/
def join (p q : Path) : Path :=
  if q.isAbsolute then q
  else if p.text = [] ∨ p.text.getLast? = some Byte.slash then ⟨p.text ++ q.text⟩
  else ⟨p.text ++ Byte.slash :: q.text⟩

def trimParts (parts : List Bytes) : List Bytes :=
  (parts.reverse.dropWhile (!isSignificant ·)).reverse

def startText (p : Path) : Bytes := if (start? p.text).isSome then p.text.take 1 else []

def parent? (p : Path) : Option Path :=
  match trimParts p.inner with
  | [] => if start? p.text = some .current then some ⟨[]⟩ else none
  | parts => some ⟨p.startText ++ joinParts (trimParts parts.dropLast)⟩

def directory (p : Path) : Path :=
  match p.parent? with
  | some parent => if parent.text = [] then current else parent
  | none => current

/-- The parts after the first `n` that have a meaning, from the next such part on. -/
def dropComponents : (n : Nat) → List Bytes → List Bytes
  | _, [] => []
  | 0, part :: others => if isSignificant part then part :: others else dropComponents 0 others
  | n + 1, part :: others =>
    if isSignificant part then dropComponents n others else dropComponents (n + 1) others

def stripPrefix? (p base : Path) : Option Path :=
  if !base.components.isPrefixOf p.components then none
  else match base.components.length with
    | 0 => some ⟨p.startText ++ joinParts (trimParts p.inner)⟩
    | n + 1 =>
      let dropped := if (start? p.text).isSome then n else n + 1
      some ⟨joinParts (trimParts (dropComponents dropped p.inner))⟩

def fileName? (p : Path) : Option Bytes :=
  match p.components.getLast? with
  | some (.name text) => some text
  | _ => none

/-- What follows the last dot of the file name, which is not its first byte. -/
def extension? (p : Path) : Option Bytes := do
  let name ← p.fileName?
  let extension := (name.reverse.takeWhile (· != 0x2e)).reverse
  if extension.length + 1 < name.length then return extension else none

def backup (p : Path) : Path := ⟨p.text ++ utf8 ".bak"⟩

def display (p : Path) : String := p.text.text

def Component.rank : Component → Nat × Bytes
  | .root => (0, [])
  | .current => (1, [])
  | .parent => (2, [])
  | .name text => (3, text)

def Component.precedes (a b : Component) : Bool :=
  a.rank.1 < b.rank.1 || (a.rank.1 == b.rank.1 && a.rank.2 < b.rank.2)

def componentsLe : List Component → List Component → Bool
  | [], _ => true
  | _ :: _, [] => false
  | a :: as, b :: bs => a.precedes b || (a == b && componentsLe as bs)

def le (p q : Path) : Bool := componentsLe p.components q.components

end Path

end OutOfLine
