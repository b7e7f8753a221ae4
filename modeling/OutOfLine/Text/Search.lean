import OutOfLine.Text.Byte

/-! Spans, literal search and replacement, recognisers and their matches, all taken from the left
without overlap. Lines and columns count from one, and distances between names are counted in
edits. -/

namespace OutOfLine

/-- The offsets from `start` up to, but without, `stop`. As in a release build, nothing is asserted of their
order. -/
structure Span where
  start : Nat
  stop : Nat
  deriving DecidableEq, Repr, Inhabited

namespace Span

def length (s : Span) : Nat := s.stop - s.start

def isEmpty (s : Span) : Bool := s.start == s.stop

def contains (s : Span) (offset : Nat) : Bool := s.start ≤ offset && offset < s.stop

def encloses (s other : Span) : Bool := s.start ≤ other.start && other.stop ≤ s.stop

def precedes (s other : Span) : Bool :=
  s.start < other.start || (s.start == other.start && s.stop < other.stop)

def slice (s : Span) (items : List α) : List α := (items.drop s.start).take s.length

def shift (s : Span) (distance : Nat) : Span := ⟨s.start + distance, s.stop + distance⟩

theorem length_slice (s : Span) (items : List α) :
    (s.slice items).length = min s.length (items.length - s.start) := by
  simp [slice]

end Span

structure Substitution where
  old : Bytes
  new : Bytes
  deriving DecidableEq, Repr

namespace Bytes

def find? (needle : Bytes) : Bytes → Option Nat
  | [] => if needle = [] then some 0 else none
  | b :: rest =>
    if needle.isPrefixOf (b :: rest) then some 0 else (find? needle rest).map (· + 1)

/-- Offsets of the occurrences of `needle` in a text at offset `at_`, of which the first `covered`
bytes belong to an occurrence already taken. -/
def occurrencesFrom (needle : Bytes) : (covered at_ : Nat) → Bytes → List Nat
  | _, _, [] => []
  | covered + 1, at_, _ :: rest => occurrencesFrom needle covered (at_ + 1) rest
  | 0, at_, b :: rest =>
    if needle.isPrefixOf (b :: rest)
    then at_ :: occurrencesFrom needle (needle.length - 1) (at_ + 1) rest
    else occurrencesFrom needle 0 (at_ + 1) rest

def occurrences (needle text : Bytes) : List Nat :=
  if needle = [] then [] else occurrencesFrom needle 0 0 text

/-- Replacement in a text of which the first `covered` bytes are already replaced; the bytes
written so far are given backwards. -/
def substituteFrom (s : Substitution) : (covered : Nat) → (written : Bytes) → Bytes → Bytes
  | _, written, [] => written.reverse
  | covered + 1, written, _ :: rest => substituteFrom s covered written rest
  | 0, written, b :: rest =>
    if s.old.isPrefixOf (b :: rest)
    then substituteFrom s (s.old.length - 1) (s.new.reverse ++ written) rest
    else substituteFrom s 0 (b :: written) rest

/-- Every occurrence of `s.old` replaced. A substitution for the empty text changes nothing. -/
def substitute (s : Substitution) (text : Bytes) : Bytes :=
  if s.old = [] then text else substituteFrom s 0 [] text

def substituteAll (text : Bytes) (substitutions : List Substitution) : Bytes :=
  substitutions.foldl (fun text s => substitute s text) text

/-- The pieces between the occurrences of a non-empty `mark`, which `covered` bytes of the text
still belong to; `piece` is the current piece backwards. -/
def splitFrom (mark : Bytes) : (covered : Nat) → (piece : Bytes) → Bytes → List Bytes
  | _, piece, [] => [piece.reverse]
  | covered + 1, piece, _ :: rest => splitFrom mark covered piece rest
  | 0, piece, b :: rest =>
    if mark.isPrefixOf (b :: rest)
    then piece.reverse :: splitFrom mark (mark.length - 1) [] rest
    else splitFrom mark 0 (b :: piece) rest

def splitOn (mark text : Bytes) : List Bytes := splitFrom mark 0 [] text

def dropHead? (head text : Bytes) : Option Bytes :=
  if head.isPrefixOf text then some (text.drop head.length) else none

def atWordEnd (rest : Bytes) : Bool := !(rest.head?.any Byte.isIdent)

end Bytes

/-- Says how many bytes match at a position and what they carry. The first argument is the byte
before the position. -/
abbrev Recogniser (α : Type) := Option Byte → Bytes → Option (Nat × α)

def isWordBoundary (before after : Option Byte) : Bool :=
  before.any Byte.isIdent != after.any Byte.isIdent

/-- The matches in a text at offset `at_` that follows `before`, when its first `covered` bytes belong
to a match already taken. -/
def Recogniser.matchesFrom (r : Recogniser α) :
    (covered at_ : Nat) → (before : Option Byte) → Bytes → List (Span × α)
  | _, _, _, [] => []
  | covered + 1, at_, _, b :: rest => matchesFrom r covered (at_ + 1) (some b) rest
  | 0, at_, before, b :: rest =>
    match r before (b :: rest) with
    | some (n, carried) =>
      (⟨at_, at_ + n⟩, carried) :: matchesFrom r (n - 1) (at_ + 1) (some b) rest
    | none => matchesFrom r 0 (at_ + 1) (some b) rest

def Recogniser.matches (r : Recogniser α) (text : Bytes) : List (Span × α) :=
  matchesFrom r 0 0 none text

structure Location where
  line : Nat
  column : Nat
  deriving DecidableEq, Repr

structure LineTable where
  length : Nat
  starts : List Nat

namespace LineTable

def startsAfterNewlines : (at_ : Nat) → Bytes → List Nat
  | _, [] => []
  | at_, b :: rest =>
    if b = Byte.newline then (at_ + 1) :: startsAfterNewlines (at_ + 1) rest
    else startsAfterNewlines (at_ + 1) rest

def of (text : Bytes) : LineTable := ⟨text.length, 0 :: startsAfterNewlines 0 text⟩

/-- Line and column of an offset: its line is the last one that starts at or before it. An offset
past the end counts as the end. -/
def locate (table : LineTable) (offset : Nat) : Location :=
  let offset := min offset table.length
  let before := table.starts.takeWhile (· ≤ offset)
  ⟨before.length, offset - before.getLastD 0 + 1⟩

end LineTable

def lineAt (text : Bytes) (offset : Nat) : Nat := ((LineTable.of text).locate offset).line

namespace Distance

/-- The rest of the row after `row`, for one more item `a`. The cell before it is `left`, and the one
above that is `diagonal`. -/
def rowFrom [DecidableEq α] (a : α) : (left diagonal : Nat) → List α → List Nat → List Nat
  | left, diagonal, b :: bs, above :: row =>
    let cell := min (min (diagonal + if a = b then 0 else 1) (left + 1)) (above + 1)
    cell :: rowFrom a cell above bs row
  | _, _, _, _ => []

def nextRow [DecidableEq α] (target : List α) (row : List Nat) (a : α) : List Nat :=
  match row with
  | [] => []
  | first :: row => (first + 1) :: rowFrom a (first + 1) first target row

def edits [DecidableEq α] (source target : List α) : Nat :=
  (source.foldl (nextRow target) (List.range (target.length + 1))).getLastD 0

end Distance

end OutOfLine
