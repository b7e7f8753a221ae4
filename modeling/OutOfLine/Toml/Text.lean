/-! Blanks, comments and strings of a TOML document, read from the front of a text and written in
the plainest form that fits. -/

namespace OutOfLine.Toml

inductive Cause where
  | malformed
  | tooDeep
  | outOfRange
  | redefined (key : String)
  deriving DecidableEq, Repr

def Cause.message : Cause → String
  | .malformed => "unexpected text"
  | .tooDeep => "values nested too deep"
  | .outOfRange => "number out of range"
  | .redefined key => s!"`{key}` is defined twice"

/-- A cause, and how many characters of the document follow its place. -/
structure Refusal where
  cause : Cause
  remaining : Nat
  deriving DecidableEq, Repr

abbrev Reader (α : Type) := List Char → Except Refusal (α × List Char)

def refuse (cause : Cause) (text : List Char) : Except Refusal α := .error ⟨cause, text.length⟩

def isBlank (c : Char) : Bool := c == ' ' || c == '\t'

def isPrintable (c : Char) : Bool := c == '\t' || (' ' ≤ c && c != '\x7f')

def isDigit (c : Char) : Bool := '0' ≤ c && c ≤ '9'

def skipBlanks (text : List Char) : List Char := text.dropWhile isBlank

def newline? : List Char → Option (List Char)
  | '\n' :: rest => some rest
  | '\r' :: '\n' :: rest => some rest
  | _ => none

def skipComment (text : List Char) : List Char :=
  match text with
  | '#' :: rest => rest.dropWhile isPrintable
  | _ => text

def lineEnd : Reader Unit := fun text =>
  match skipComment (skipBlanks text) with
  | [] => .ok ((), [])
  | rest =>
    match newline? rest with
    | some rest => .ok ((), rest)
    | none => refuse .malformed rest

def skipLines : (fuel : Nat) → List Char → List Char
  | 0, text => text
  | fuel + 1, text =>
    match skipBlanks text with
    | '#' :: rest => skipLines fuel (rest.dropWhile isPrintable)
    | rest =>
      match newline? rest with
      | some rest => skipLines fuel rest
      | none => rest

def hexDigit? (c : Char) : Option Nat :=
  if isDigit c then some (c.toNat - '0'.toNat)
  else if 'a' ≤ c ∧ c ≤ 'f' then some (c.toNat - 'a'.toNat + 10)
  else if 'A' ≤ c ∧ c ≤ 'F' then some (c.toNat - 'A'.toNat + 10)
  else none

def codePoint? (digits : List Char) : Option Char := do
  let values ← digits.mapM hexDigit?
  let n := values.foldl (fun n d => 16 * n + d) 0
  if n.isValidChar then return Char.ofNat n else none

def escape? : Char → Option Char
  | 'b' => some '\x08'
  | 't' => some '\t'
  | 'n' => some '\n'
  | 'f' => some '\x0c'
  | 'r' => some '\r'
  | '"' => some '"'
  | '\\' => some '\\'
  | _ => none

def isPlain (c : Char) : Bool := isPrintable c && c != '"' && c != '\\'

def basicFrom (done : List Char) : Reader String
  | '"' :: rest => .ok (.ofList done.reverse, rest)
  | text@('\\' :: 'u' :: a :: b :: c :: d :: rest) =>
    match codePoint? [a, b, c, d] with
    | some ch => basicFrom (ch :: done) rest
    | none => refuse .malformed text
  | text@('\\' :: 'U' :: a :: b :: c :: d :: e :: f :: g :: h :: rest) =>
    match codePoint? [a, b, c, d, e, f, g, h] with
    | some ch => basicFrom (ch :: done) rest
    | none => refuse .malformed text
  | text@('\\' :: e :: rest) =>
    match escape? e with
    | some ch => basicFrom (ch :: done) rest
    | none => refuse .malformed text
  | c :: rest => if isPlain c then basicFrom (c :: done) rest else refuse .malformed (c :: rest)
  | [] => refuse .malformed []

/-- The rest of a basic string over several lines. A backslash at the end of a line has blanks and
line ends `skipped` after it. At most two quotes stand right before the closing ones. -/
def basicLinesFrom (skipped : Bool) (done : List Char) : Reader String
  | '"' :: '"' :: '"' :: '"' :: '"' :: rest => .ok (.ofList ('"' :: '"' :: done).reverse, rest)
  | '"' :: '"' :: '"' :: '"' :: rest => .ok (.ofList ('"' :: done).reverse, rest)
  | '"' :: '"' :: '"' :: rest => .ok (.ofList done.reverse, rest)
  | '"' :: rest => basicLinesFrom false ('"' :: done) rest
  | '\n' :: rest => basicLinesFrom skipped (if skipped then done else '\n' :: done) rest
  | '\r' :: '\n' :: rest => basicLinesFrom skipped (if skipped then done else '\n' :: done) rest
  | text@('\\' :: 'u' :: a :: b :: c :: d :: rest) =>
    match codePoint? [a, b, c, d] with
    | some ch => basicLinesFrom false (ch :: done) rest
    | none => refuse .malformed text
  | text@('\\' :: 'U' :: a :: b :: c :: d :: e :: f :: g :: h :: rest) =>
    match codePoint? [a, b, c, d, e, f, g, h] with
    | some ch => basicLinesFrom false (ch :: done) rest
    | none => refuse .malformed text
  | text@('\\' :: e :: rest) =>
    match escape? e with
    | some ch => basicLinesFrom false (ch :: done) rest
    | none =>
      if (newline? (skipBlanks (e :: rest))).isSome then basicLinesFrom true done (e :: rest)
      else refuse .malformed text
  | c :: rest =>
    if skipped && isBlank c then basicLinesFrom true done rest
    else if isPlain c then basicLinesFrom false (c :: done) rest
    else refuse .malformed (c :: rest)
  | [] => refuse .malformed []

def literalFrom (done : List Char) : Reader String
  | '\'' :: rest => .ok (.ofList done.reverse, rest)
  | c :: rest => if isPrintable c then literalFrom (c :: done) rest else refuse .malformed (c :: rest)
  | [] => refuse .malformed []

def literalLinesFrom (done : List Char) : Reader String
  | '\'' :: '\'' :: '\'' :: '\'' :: '\'' :: rest =>
    .ok (.ofList ('\'' :: '\'' :: done).reverse, rest)
  | '\'' :: '\'' :: '\'' :: '\'' :: rest => .ok (.ofList ('\'' :: done).reverse, rest)
  | '\'' :: '\'' :: '\'' :: rest => .ok (.ofList done.reverse, rest)
  | '\n' :: rest => literalLinesFrom ('\n' :: done) rest
  | '\r' :: '\n' :: rest => literalLinesFrom ('\n' :: done) rest
  | c :: rest =>
    if isPrintable c then literalLinesFrom (c :: done) rest else refuse .malformed (c :: rest)
  | [] => refuse .malformed []

def lineString : Reader String
  | '"' :: rest => basicFrom [] rest
  | '\'' :: rest => literalFrom [] rest
  | text => refuse .malformed text

/-- A string of any form. A line end right after the opening quotes of a long form is not part of it. -/
def string : Reader String
  | '"' :: '"' :: '"' :: rest => basicLinesFrom false [] ((newline? rest).getD rest)
  | '\'' :: '\'' :: '\'' :: rest => literalLinesFrom [] ((newline? rest).getD rest)
  | text => lineString text

inductive StringForm where
  | basic
  | literal
  | basicLines
  | literalLines
  deriving DecidableEq, Repr

def needsEscape (c : Char) : Bool := (c < ' ' && c != '\t' && c != '\n') || c == '\x7f'

def hasTriple (quote : Char) : List Char → Bool
  | [] => false
  | c :: text => [quote, quote, quote].isPrefixOf (c :: text) || hasTriple quote text

namespace StringForm

def fits (text : List Char) : StringForm → Bool
  | .basic => !text.any fun c => needsEscape c || c == '\\' || c == '"' || c == '\n'
  | .literal => !text.any fun c => needsEscape c || c == '\'' || c == '\n'
  | .basicLines => !(text.any fun c => needsEscape c || c == '\\') && !hasTriple '"' text
  | .literalLines => !text.any needsEscape && !hasTriple '\'' text

/-- The form of a text: the first one that fits, or else a basic form. -/
def of (text : List Char) : StringForm :=
  match [basic, literal, basicLines, literalLines].find? (·.fits text) with
  | some form => form
  | none => if text.contains '\n' then basicLines else basic

end StringForm

def hexDigit (n : Nat) : Char := if n < 10 then Char.ofNat (48 + n) else Char.ofNat (55 + n)

def escaped (c : Char) : List Char :=
  if c = '\x08' then ['\\', 'b']
  else if c = '\t' then ['\\', 't']
  else if c = '\n' then ['\\', 'n']
  else if c = '\x0c' then ['\\', 'f']
  else if c = '\r' then ['\\', 'r']
  else if c = '"' then ['\\', '"']
  else if c = '\\' then ['\\', '\\']
  else if needsEscape c then ['\\', 'u', '0', '0', hexDigit (c.toNat / 16), hexDigit (c.toNat % 16)]
  else [c]

/-- The inside of a long basic string after `quotes` plain quotes. Every third quote in a row is
escaped. -/
def escapedLines : (quotes : Nat) → List Char → List Char
  | _, [] => []
  | 2, '"' :: text => '\\' :: '"' :: escapedLines 0 text
  | quotes, '"' :: text => '"' :: escapedLines (quotes + 1) text
  | _, '\n' :: text => '\n' :: escapedLines 0 text
  | _, c :: text => escaped c ++ escapedLines 0 text

/-- A text between `marks`. In a long form a text of several lines begins on a line of its own. -/
def quoted (form : StringForm) (text : List Char) : List Char :=
  let opening := if text.contains '\n' then ['\n'] else []
  match form with
  | .basic => '"' :: text.flatMap escaped ++ ['"']
  | .literal => '\'' :: text ++ ['\'']
  | .basicLines => ['"', '"', '"'] ++ opening ++ escapedLines 0 text ++ ['"', '"', '"']
  | .literalLines => ['\'', '\'', '\''] ++ opening ++ text ++ ['\'', '\'', '\'']

def writeString (s : String) : String := .ofList (quoted (.of s.toList) s.toList)

def writeItem (key : String) (entries : List (String × String)) : String :=
  let assignments := entries.map fun (name, s) =>
    let value := writeString s
    s!"{name} = {value}\n"
  String.join (s!"[[{key}]]\n" :: assignments)

/-- A document with an array of tables of strings under `key`, which like the names of the entries
has to be a bare key. An empty line parts the tables. -/
def writeTables (key : String) (items : List (List (String × String))) : String :=
  if items.isEmpty then s!"{key} = []\n" else "\n".intercalate (items.map (writeItem key))

end OutOfLine.Toml
