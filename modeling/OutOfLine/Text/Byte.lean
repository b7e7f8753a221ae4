/-! Bytes of a source text. A text is the list of its UTF-8 bytes, every offset counts bytes, and
a byte outside ASCII belongs to no ASCII class. Names and options are strings at the edge of the
library and bytes inside it. -/

namespace OutOfLine

abbrev Byte := UInt8

/-- A text, as the list of its bytes. -/
abbrev Bytes := List Byte

namespace Byte

abbrev tab : Byte := 0x09
abbrev newline : Byte := 0x0a
abbrev verticalTab : Byte := 0x0b
abbrev formFeed : Byte := 0x0c
abbrev carriageReturn : Byte := 0x0d
abbrev space : Byte := 0x20
abbrev doubleQuote : Byte := 0x22
abbrev hash : Byte := 0x23
abbrev singleQuote : Byte := 0x27
abbrev openParen : Byte := 0x28
abbrev closeParen : Byte := 0x29
abbrev star : Byte := 0x2a
abbrev comma : Byte := 0x2c
abbrev minus : Byte := 0x2d
abbrev slash : Byte := 0x2f
abbrev colon : Byte := 0x3a
abbrev semicolon : Byte := 0x3b
abbrev less : Byte := 0x3c
abbrev equals : Byte := 0x3d
abbrev greater : Byte := 0x3e
abbrev openBracket : Byte := 0x5b
abbrev backslash : Byte := 0x5c
abbrev closeBracket : Byte := 0x5d
abbrev underscore : Byte := 0x5f
abbrev openBrace : Byte := 0x7b
abbrev closeBrace : Byte := 0x7d
abbrev tilde : Byte := 0x7e

def isAscii (b : Byte) : Bool := b < 0x80

def isDigit (b : Byte) : Bool := 0x30 ≤ b && b ≤ 0x39

def isLetter (b : Byte) : Bool := (0x41 ≤ b && b ≤ 0x5a) || (0x61 ≤ b && b ≤ 0x7a)

def isIdent (b : Byte) : Bool := isLetter b || isDigit b || b == underscore

/-- The blanks that separate tokens: space, tab, newline, form feed, carriage return. -/
def isBlank (b : Byte) : Bool :=
  b == space || b == tab || b == newline || b == formFeed || b == carriageReturn

/-- The ASCII part of the Unicode property White_Space, which has the vertical tab as well. -/
def isWhite (b : Byte) : Bool := isBlank b || b == verticalTab

def isInlineBlank (b : Byte) : Bool := b == space || b == tab

theorem isWhite_of_isBlank {b : Byte} (h : isBlank b = true) : isWhite b = true := by
  simp [isWhite, h]

end Byte

def utf8 (s : String) : Bytes := s.toList.flatMap String.utf8EncodeChar

namespace Bytes

def decode? (bs : Bytes) : Option String := String.fromUTF8? ⟨bs.toArray⟩

/-- The string that `bs` encodes. In an invalid text every byte outside ASCII reads as U+FFFD. -/
def text (bs : Bytes) : String :=
  (decode? bs).getD (.ofList (bs.map fun b =>
    if Byte.isAscii b then Char.ofNat b.toNat else Char.ofNat 0xfffd))

end Bytes

@[simp] theorem utf8_empty : utf8 "" = [] := rfl

namespace Blank

/-- Whether the three bytes encode a White_Space character: U+1680, U+2000 to U+200A, U+2028,
U+2029, U+202F, U+205F or U+3000. -/
def isTriple (a b c : Byte) : Bool :=
  (a == 0xe1 && b == 0x9a && c == 0x80) ||
  (a == 0xe2 && b == 0x80 && ((0x80 ≤ c && c ≤ 0x8a) || c == 0xa8 || c == 0xa9 || c == 0xaf)) ||
  (a == 0xe2 && b == 0x81 && c == 0x9f) ||
  (a == 0xe3 && b == 0x80 && c == 0x80)

def isPair (a b : Byte) : Bool := a == 0xc2 && (b == 0x85 || b == 0xa0)

/-- Width of the White_Space character at the end of a text, given backwards; zero if there is none. -/
def width : Bytes → Nat
  | c :: b :: a :: _ =>
    if Byte.isWhite c then 1 else if isPair b c then 2 else if isTriple a b c then 3 else 0
  | [c, b] => if Byte.isWhite c then 1 else if isPair b c then 2 else 0
  | [c] => if Byte.isWhite c then 1 else 0
  | [] => 0

def skip (reversed : Bytes) : Bytes :=
  if width reversed = 0 then reversed
  else match reversed with
    | [] => []
    | _ :: rest => skip (rest.drop (width reversed - 1))
termination_by reversed.length
decreasing_by
  rw [List.length_drop, List.length_cons]
  exact Nat.lt_succ_of_le (Nat.sub_le _ _)

def trimEnd (text : Bytes) : Bytes := (skip text.reverse).reverse

def trimAsciiStart (text : Bytes) : Bytes := text.dropWhile Byte.isWhite

def trimAscii (text : Bytes) : Bytes :=
  ((trimAsciiStart text).reverse.dropWhile Byte.isWhite).reverse

end Blank

end OutOfLine
