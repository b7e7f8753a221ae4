import OutOfLine.Text.Search

/-! The lexemes of a C++ text that matter to brace matching: comments, literals, and single bytes
of code. A lexeme is known from its first byte, the text after it, and the identifier run right
before it. -/

namespace OutOfLine

inductive LexClass where
  | code
  | string
  | char
  | lineComment
  | blockComment
  deriving DecidableEq, Repr

inductive Opener where
  | string
  | rawString
  | char
  | blockComment
  deriving DecidableEq, Repr

def Opener.label : Opener → String
  | .string => "string literal"
  | .rawString => "raw string literal"
  | .char => "character literal"
  | .blockComment => "block comment"

namespace Lexeme

def maxDelimiter : Nat := 16

def rawPrefixes : List Bytes := [utf8 "R", utf8 "u8R", utf8 "uR", utf8 "UR", utf8 "LR"]

/-- How many bytes of `text` a line comment takes: all before the first newline that no backslash
stands in front of. -/
def lineCommentLength : Bytes → Nat
  | [] => 0
  | [b] => if b = Byte.newline then 0 else 1
  | b :: c :: rest =>
    if b = Byte.newline then 0
    else if b = Byte.backslash ∧ c = Byte.newline then lineCommentLength rest + 2
    else lineCommentLength (c :: rest) + 1

def blockCommentLength? : Bytes → Option Nat
  | b :: c :: rest =>
    if b = Byte.star ∧ c = Byte.slash then some 2
    else (blockCommentLength? (c :: rest)).map (· + 1)
  | _ => none

/-- How many bytes of `text` a literal takes, through the closing `quote`, if it has one. A backslash
takes the byte after it along. -/
def quotedLength? (quote : Byte) : Bytes → Option Nat
  | [] => none
  | [b] => if b = quote then some 1 else none
  | b :: c :: rest =>
    if b = Byte.backslash then (quotedLength? quote rest).map (· + 2)
    else if b = quote then some 1
    else (quotedLength? quote (c :: rest)).map (· + 1)

def isDelimiter (b : Byte) : Bool :=
  !(Byte.isBlank b || b == Byte.backslash || b == Byte.closeParen || b == Byte.doubleQuote)

/-- The sequence that closes a raw string, if the quote between `run`, the identifier run before it
given backwards, and `text` opens one. -/
def rawCloser? (run text : Bytes) : Option Bytes := do
  guard (run.reverse ∈ rawPrefixes)
  let window := text.take (maxDelimiter + 1)
  let delimiter := window.takeWhile (· != Byte.openParen)
  guard (delimiter.length < window.length)
  guard (delimiter.all isDelimiter)
  return Byte.closeParen :: delimiter ++ [Byte.doubleQuote]

/-- Whether a quote right after `run` stands inside a number, as in `1'000`. -/
def isDigitSeparator (run : Bytes) : Bool := run.getLast?.any Byte.isDigit

/-- The class of the lexeme that begins with `first`, and how many bytes of the text after it belong
to it. `run` is the identifier run right before, given backwards. -/
def extent (run : Bytes) (first : Byte) (text : Bytes) : Except Opener (LexClass × Nat) :=
  if first = Byte.slash ∧ text.head? = some Byte.slash then
    .ok (.lineComment, lineCommentLength (text.drop 1) + 1)
  else if first = Byte.slash ∧ text.head? = some Byte.star then
    match blockCommentLength? (text.drop 1) with
    | some n => .ok (.blockComment, n + 1)
    | none => .error .blockComment
  else if first = Byte.doubleQuote then
    match rawCloser? run text with
    | some closer =>
      match Bytes.find? closer text with
      | some n => .ok (.string, n + closer.length)
      | none => .error .rawString
    | none =>
      match quotedLength? Byte.doubleQuote text with
      | some n => .ok (.string, n)
      | none => .error .string
  else if first = Byte.singleQuote ∧ isDigitSeparator run = false then
    match quotedLength? Byte.singleQuote text with
    | some n => .ok (.char, n)
    | none => .error .char
  else .ok (.code, 0)

end Lexeme

structure Cell where
  byte : Byte
  cls : LexClass
  deriving DecidableEq, Repr

/-- An opener that is never closed, and the bytes before it. -/
structure Unterminated where
  opener : Opener
  offset : Nat
  deriving DecidableEq, Repr

namespace Cell

def isCode (c : Cell) : Bool := c.cls == .code

def isCodeByte (b : Byte) (c : Cell) : Bool := c.byte == b && c.isCode

/-- Comments, literals and blanks: what stands between the tokens that matter. -/
def isTrivia (c : Cell) : Bool := !c.isCode || Byte.isBlank c.byte

def isComment (c : Cell) : Bool := c.cls == .lineComment || c.cls == .blockComment

/-- The byte as the recognisers see it: code and newlines as they are, all else blanked. -/
def view (c : Cell) : Byte :=
  if Byte.isAscii c.byte && (c.byte == Byte.newline || c.isCode) then c.byte else Byte.space

def runAfter (run : Bytes) (c : Cell) : Bytes :=
  if c.isCode && Byte.isIdent c.byte then c.byte :: run else []

/-- Classification of a text whose first `pending` bytes are the rest of a lexeme of class `cls`.
`run` is the identifier run right before it and `done` the cells before it, both backwards. -/
def classifyFrom (run : Bytes) (cls : LexClass) (pending : Nat) (done : List Cell) :
    Bytes → Except Unterminated (List Cell)
  | [] => .ok done.reverse
  | b :: text =>
    match pending with
    | pending + 1 => classifyFrom (runAfter run ⟨b, cls⟩) cls pending (⟨b, cls⟩ :: done) text
    | 0 =>
      match Lexeme.extent run b text with
      | .error opener => .error ⟨opener, done.length⟩
      | .ok (cls, pending) =>
        classifyFrom (runAfter run ⟨b, cls⟩) cls pending (⟨b, cls⟩ :: done) text

/-- The cells of a text, or the first opener that is never closed. -/
def classify (text : Bytes) : Except Unterminated (List Cell) := classifyFrom [] .code 0 [] text

end Cell

def Cell.bytes (cells : List Cell) : Bytes := cells.map Cell.byte

def Cell.views (cells : List Cell) : Bytes := cells.map Cell.view

end OutOfLine
