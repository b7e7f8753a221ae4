import OutOfLine.Toml.Text

/-! TOML documents. Numbers with a fraction and dates keep their spelling. Values nest at most
`maxDepth` deep, and a draft of a table remembers how it came to be, since that decides what may
add to it. -/

namespace OutOfLine.Toml

inductive Value where
  | string (text : String)
  | integer (n : Int)
  | float (literal : String)
  | boolean (b : Bool)
  | datetime (literal : String)
  | array (items : List Value)
  | table (entries : List (String × Value))

/-- The entries of a table, each key once, in the order of their definition. -/
abbrev Table := List (String × Value)

namespace Table

def get? (t : Table) (key : String) : Option Value := t.lookup key

def sortedKeys (t : Table) : List String := (t.map Prod.fst).mergeSort fun a b => a ≤ b

end Table

namespace Value

def string? : Value → Option String
  | .string text => some text
  | _ => none

def boolean? : Value → Option Bool
  | .boolean b => some b
  | _ => none

def array? : Value → Option (List Value)
  | .array items => some items
  | _ => none

def table? : Value → Option Table
  | .table entries => some entries
  | _ => none

def stringAt? (v : Value) (key : String) : Option String := do
  (← (← v.table?).get? key).string?

end Value

namespace Scalar

/-- The digits of a number without the underscores that part them. An underscore stands between two
digits, and there is at least one digit. `afterDigit` says whether a digit stands right before. -/
def digits? (isDigit : Char → Bool) (afterDigit : Bool) : List Char → Option (List Char)
  | [] => if afterDigit then some [] else none
  | '_' :: rest => if afterDigit && !rest.isEmpty then digits? isDigit false rest else none
  | c :: rest => if isDigit c then (digits? isDigit true rest).map (c :: ·) else none

def number (base : Nat) (digits : List Char) : Nat :=
  digits.foldl (fun n c => base * n + (hexDigit? c).getD 0) 0

def decimal? (token : List Char) : Option (List Char) := do
  let digits ← digits? isDigit false token
  if digits.head? = some '0' ∧ token ≠ ['0'] then none else return digits

def sign : List Char → Bool × List Char
  | '-' :: rest => (true, rest)
  | '+' :: rest => (false, rest)
  | token => (false, token)

def inRange (n : Int) : Bool := -9223372036854775808 ≤ n && n < 9223372036854775808

def integer? : List Char → Option Int
  | '0' :: 'x' :: rest => (digits? (hexDigit? · |>.isSome) false rest).map (number 16 ·)
  | '0' :: 'o' :: rest => (digits? (fun c => '0' ≤ c && c ≤ '7') false rest).map (number 8 ·)
  | '0' :: 'b' :: rest => (digits? (fun c => c == '0' || c == '1') false rest).map (number 2 ·)
  | token =>
    let (negative, rest) := sign token
    (decimal? rest).map fun digits =>
      let n : Int := number 10 digits
      if negative then -n else n

/-- A number in decimal notation: all its digits, of which `fraction` stand after the point, times a
power of ten. -/
structure DecimalFloat where
  negative : Bool
  digits : List Char
  fraction : Nat
  exponent : Int

def decimalFloat? (token : List Char) : Option DecimalFloat := do
  let (negative, rest) := sign token
  let isMark (c : Char) := c == 'e' || c == 'E'
  let mantissa := rest.takeWhile (!isMark ·)
  let whole := mantissa.takeWhile (· != '.')
  let wholeDigits ← decimal? whole
  let fractionDigits ← match mantissa.drop whole.length with
    | [] => some []
    | _ :: fraction => digits? isDigit false fraction
  let exponent ← match rest.drop mantissa.length with
    | [] => if mantissa.length = whole.length then none else some 0
    | _ :: power => do
      let (negative, power) := sign power
      let n : Int := number 10 (← digits? isDigit false power)
      some (if negative then -n else n)
  return ⟨negative, wholeDigits ++ fractionDigits, fractionDigits.length, exponent⟩

/-- Half a unit in the last place above the largest double. -/
def tooLarge : Nat := Nat.pow 2 1024 - Nat.pow 2 970

def overflows (f : DecimalFloat) : Bool :=
  let n := number 10 f.digits
  let power := f.exponent - f.fraction
  if n = 0 ∨ (f.digits.length : Int) + power < 309 then false
  else if 309 < power then true
  else if 0 ≤ power then tooLarge ≤ n * Nat.pow 10 power.toNat
  else tooLarge * Nat.pow 10 (-power).toNat ≤ n

def twoDigits? (limit : Nat) : List Char → Option (Nat × List Char)
  | a :: b :: rest =>
    let n := number 10 [a, b]
    if isDigit a && isDigit b && n ≤ limit then some (n, rest) else none
  | _ => none

def after? (c : Char) : List Char → Option (List Char)
  | d :: rest => if c = d then some rest else none
  | [] => none

def monthLength (year month : Nat) : Nat :=
  if month = 2 then
    if year % 4 = 0 ∧ (year % 100 ≠ 0 ∨ year % 400 = 0) then 29 else 28
  else if month ∈ [4, 6, 9, 11] then 30 else 31

def afterDate? (token : List Char) : Option (List Char) := do
  let (century, rest) ← twoDigits? 99 token
  let (year, rest) ← twoDigits? 99 rest
  let (month, rest) ← twoDigits? 12 (← after? '-' rest)
  let (day, rest) ← twoDigits? 31 (← after? '-' rest)
  guard (1 ≤ month ∧ 1 ≤ day ∧ day ≤ monthLength (100 * century + year) month)
  return rest

def afterTime? (token : List Char) : Option (List Char) := do
  let (_, rest) ← twoDigits? 23 token
  let (_, rest) ← twoDigits? 59 (← after? ':' rest)
  let (_, rest) ← twoDigits? 60 (← after? ':' rest)
  match rest with
  | '.' :: fraction =>
    guard (fraction.head?.any isDigit)
    return fraction.dropWhile isDigit
  | _ => return rest

def isOffset : List Char → Bool
  | [] => true
  | ['Z'] | ['z'] => true
  | c :: rest =>
    (c == '+' || c == '-') && (do
      let (_, rest) ← twoDigits? 23 rest
      let (_, rest) ← twoDigits? 59 (← after? ':' rest)
      guard rest.isEmpty).isSome

/-- Whether a token is a date, a time, or both, the latter with or without a time zone. -/
def isDatetime (token : List Char) : Bool :=
  match afterDate? token with
  | some [] => true
  | some (mark :: rest) => mark ∈ ['T', 't', ' '] && (afterTime? rest).any isOffset
  | none => (afterTime? token).any List.isEmpty

def isTokenChar (c : Char) : Bool :=
  c.isAlphanum || c == '+' || c == '-' || c == '_' || c == '.' || c == ':'

/-- The token that a text begins with. One blank may part the time of day from its date. -/
def token (text : List Char) : List Char :=
  let first := text.takeWhile isTokenChar
  match text.drop first.length with
  | ' ' :: c :: rest =>
    if isDigit c && (afterDate? first).any List.isEmpty
    then first ++ ' ' :: (c :: rest).takeWhile isTokenChar else first
  | _ => first

def value? (token : List Char) : Except Cause Value :=
  let literal := String.ofList token
  if literal = "true" then .ok (.boolean true)
  else if literal = "false" then .ok (.boolean false)
  else if (sign token).2 ∈ ["inf".toList, "nan".toList] then .ok (.float literal)
  else if isDatetime token then .ok (.datetime literal)
  else match integer? token with
    | some n => if inRange n then .ok (.integer n) else .error .outOfRange
    | none =>
      match decimalFloat? token with
      | some f =>
        if !f.negative && overflows f then .error .outOfRange else .ok (.float literal)
      | none => .error .malformed

def read : Reader Value := fun text =>
  let token := token text
  match value? token with
  | .ok v => .ok (v, text.drop token.length)
  | .error cause => refuse cause text

end Scalar

inductive TableOrigin where
  /-- By a header of its own, or as the whole document or inline table. -/
  | header
  /-- On the way to the table of a longer header. -/
  | passage
  /-- On the way to a dotted key. -/
  | dotted
  deriving DecidableEq, Repr

inductive Draft where
  | value (v : Value)
  | table (origin : TableOrigin) (entries : List (String × Draft))
  | tables (items : List (List (String × Draft)))

abbrev Entries := List (String × Draft)

namespace Draft

mutual

def toValue : Draft → Value
  | .value v => v
  | .table _ entries => .table (entriesToTable entries)
  | .tables items => .array (itemsToValues items).reverse

def entriesToTable : List (String × Draft) → Table
  | [] => []
  | (key, draft) :: entries => (key, toValue draft) :: entriesToTable entries

def itemsToValues : List (List (String × Draft)) → List Value
  | [] => []
  | entries :: items => .table (entriesToTable entries) :: itemsToValues items

end

end Draft

namespace Entries

def put (key : String) (draft : Draft) : Entries → Entries
  | [] => [(key, draft)]
  | (other, held) :: entries =>
    if other = key then (key, draft) :: entries else (other, held) :: put key draft entries

/-- The entries with the table at `path` changed by `change`, which learns how that table came to be.
Missing tables on the way come to be by `missing`. A dotted key does not enter a table that has a
header of its own. -/
def update (missing : TableOrigin) (change : TableOrigin → Entries → Except Cause Entries) :
    (path : List String) → (origin : TableOrigin) → Entries → Except Cause Entries
  | [], origin, entries => change origin entries
  | key :: path, _, entries =>
    match entries.lookup key with
    | none => do
      let child ← update missing change path missing []
      return entries.put key (.table missing child)
    | some (.value _) => .error (.redefined key)
    | some (.tables []) => .error (.redefined key)
    | some (.tables (last :: earlier)) => do
      let last ← update missing change path .header last
      return entries.put key (.tables (last :: earlier))
    | some (.table origin child) =>
      if missing = .dotted ∧ origin = .header then .error (.redefined key)
      else do
        let child ← update missing change path origin child
        return entries.put key (.table origin child)

/-- The definition of `key` in the table at the dotted `path`. A dotted key adds only to tables that
dotted keys made. -/
def define (path : List String) (key : String) (v : Value) (entries : Entries) :
    Except Cause Entries :=
  update .dotted (fun origin table =>
    if (origin == .dotted) == path.isEmpty then .error (.redefined key)
    else if (table.lookup key).isSome then .error (.redefined key)
    else .ok (table ++ [(key, .value v)])) path .header entries

/-- The table that a header for `key` makes. A table that was only passed on the way to others gets
its header now. -/
def openTable (key : String) (_ : TableOrigin) (entries : Entries) : Except Cause Entries :=
  match entries.lookup key with
  | none => .ok (entries.put key (.table .header []))
  | some (.table .passage child) => .ok (entries.put key (.table .header child))
  | some _ => .error (.redefined key)

def openItem (key : String) (_ : TableOrigin) (entries : Entries) : Except Cause Entries :=
  match entries.lookup key with
  | none => .ok (entries.put key (.tables [[]]))
  | some (.tables items) => .ok (entries.put key (.tables ([] :: items)))
  | some _ => .error (.redefined key)

def defineUnder (current path : List String) (key : String) (v : Value) (entries : Entries) :
    Except Cause Entries :=
  update .passage (fun _ table => define path key v table) current .header entries

end Entries

def maxDepth : Nat := 79

def isBareKey (c : Char) : Bool := c.isAlphanum || c == '_' || c == '-'

def simpleKey : Reader String := fun text =>
  let bare := text.takeWhile isBareKey
  if bare = [] then lineString text else .ok (.ofList bare, text.drop bare.length)

def keyParts : (fuel : Nat) → Reader (List String)
  | 0, text => refuse .malformed text
  | fuel + 1, text => do
    let (part, rest) ← simpleKey (skipBlanks text)
    match skipBlanks rest with
    | '.' :: rest =>
      let (parts, rest) ← keyParts fuel rest
      return (part :: parts, rest)
    | rest => return ([part], rest)

def key : Reader (List String × String) := fun text => do
  let (parts, rest) ← keyParts text.length text
  if maxDepth < parts.length then refuse .tooDeep text
  else return ((parts.dropLast, parts.getLastD ""), rest)

def expect (c : Char) : Reader Unit
  | d :: rest => if c = d then .ok ((), rest) else refuse .malformed (d :: rest)
  | [] => refuse .malformed []

def assignment (element : Reader Value) : Reader ((List String × String) × Value) := fun text => do
  let (path, rest) ← key text
  let (_, rest) ← expect '=' rest
  let (v, rest) ← element (skipBlanks rest)
  return ((path, v), rest)

/-- The items of an array and its closing bracket. A comma may follow the last item. -/
def arrayItems (element : Reader Value) : (fuel : Nat) → Reader (List Value)
  | 0, text => refuse .malformed text
  | fuel + 1, text =>
    match skipLines text.length text with
    | ']' :: rest => .ok ([], rest)
    | text => do
      let (item, rest) ← element text
      match skipLines rest.length rest with
      | ',' :: rest =>
        let (items, rest) ← arrayItems element fuel rest
        return (item :: items, rest)
      | ']' :: rest => return ([item], rest)
      | rest => refuse .malformed rest

def inlineEntries (element : Reader Value) : (fuel : Nat) → Entries → Reader Entries
  | 0, _, text => refuse .malformed text
  | fuel + 1, entries, text => do
    let (((path, key), v), rest) ← assignment element text
    match entries.define path key v, skipBlanks rest with
    | .error cause, _ => refuse cause text
    | .ok entries, ',' :: rest => inlineEntries element fuel entries rest
    | .ok entries, '\x7d' :: rest => return (entries, rest)
    | .ok _, rest => refuse .malformed rest

def inlineTable (element : Reader Value) : Reader Value := fun text =>
  match skipBlanks text with
  | '\x7d' :: rest => .ok (.table [], rest)
  | rest => do
    let (entries, rest) ← inlineEntries element text.length [] rest
    return (.table (Draft.entriesToTable entries), rest)

def value : (depth : Nat) → Reader Value
  | _, text@('"' :: _) | _, text@('\'' :: _) => do
    let (s, rest) ← string text
    return (.string s, rest)
  | 0, text@('[' :: _) | 0, text@('\x7b' :: _) => refuse .tooDeep text
  | depth + 1, '[' :: rest => do
    let (items, rest) ← arrayItems (value depth) (rest.length + 1) rest
    return (.array items, rest)
  | depth + 1, '\x7b' :: rest => inlineTable (value depth) rest
  | _, text => Scalar.read text

def header (closing : List Char) : Reader (List String × String) := fun text => do
  let (path, rest) ← key text
  if closing.isPrefixOf rest then
    let (_, rest) ← lineEnd (rest.drop closing.length)
    return (path, rest)
  else refuse .malformed rest

/-- A document that goes on with `text`, when `entries` are read and `current` is the table that
assignments go to. -/
def documentFrom : (fuel : Nat) → (current : List String) → Entries → List Char →
    Except Refusal Entries
  | 0, _, _, text => refuse .malformed text
  | fuel + 1, current, entries, text =>
    match skipBlanks text with
    | [] => .ok entries
    | text@('#' :: _) => do
      let (_, rest) ← lineEnd text
      documentFrom fuel current entries rest
    | '[' :: '[' :: rest => do
      let ((path, key), rest) ← header "]]".toList rest
      match entries.update .passage (Entries.openItem key) path .header with
      | .ok entries => documentFrom fuel (path ++ [key]) entries rest
      | .error cause => refuse cause text
    | '[' :: rest => do
      let ((path, key), rest) ← header "]".toList rest
      match entries.update .passage (Entries.openTable key) path .header with
      | .ok entries => documentFrom fuel (path ++ [key]) entries rest
      | .error cause => refuse cause text
    | text =>
      match newline? text with
      | some rest => documentFrom fuel current entries rest
      | none => do
        let (((path, key), v), rest) ← assignment (value maxDepth) text
        let (_, rest) ← lineEnd rest
        match entries.defineUnder current path key v with
        | .ok entries => documentFrom fuel current entries rest
        | .error cause => refuse cause text

structure ReadError where
  cause : Cause
  line : Nat
  deriving DecidableEq, Repr

def ReadError.message (e : ReadError) : String :=
  let line := e.line
  let cause := e.cause.message
  s!"line {line}: {cause}"

/-- The table that a document defines. A byte order mark in front is no part of it. -/
def read (document : String) : Except ReadError Table :=
  let text := match document.toList with
    | '\ufeff' :: text => text
    | text => text
  match documentFrom (text.length + 1) [] [] text with
  | .ok entries => .ok (Draft.entriesToTable entries)
  | .error ⟨cause, remaining⟩ =>
    .error ⟨cause, (text.take (text.length - remaining)).count '\n' + 1⟩

end OutOfLine.Toml
