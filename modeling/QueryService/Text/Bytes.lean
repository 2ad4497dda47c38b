/-!
# Byte strings

Source text is a list of bytes in no particular encoding: lengths, offsets and columns count bytes,
and a byte from 0x80 up is never a letter, a digit or a blank.
-/

namespace QueryService

abbrev Bytes := List UInt8

/-- The bytes of a text that holds ASCII only. -/
def ascii (text : String) : Bytes := text.toList.map Char.toUInt8

namespace Byte

@[match_pattern] abbrev tab : UInt8 := 0x09
@[match_pattern] abbrev lf : UInt8 := 0x0A
@[match_pattern] abbrev cr : UInt8 := 0x0D
@[match_pattern] abbrev space : UInt8 := 0x20
@[match_pattern] abbrev doubleQuote : UInt8 := 0x22
@[match_pattern] abbrev hash : UInt8 := 0x23
@[match_pattern] abbrev dollar : UInt8 := 0x24
@[match_pattern] abbrev singleQuote : UInt8 := 0x27
@[match_pattern] abbrev parenOpen : UInt8 := 0x28
@[match_pattern] abbrev parenClose : UInt8 := 0x29
@[match_pattern] abbrev star : UInt8 := 0x2A
@[match_pattern] abbrev plus : UInt8 := 0x2B
@[match_pattern] abbrev comma : UInt8 := 0x2C
@[match_pattern] abbrev minus : UInt8 := 0x2D
@[match_pattern] abbrev dot : UInt8 := 0x2E
@[match_pattern] abbrev slash : UInt8 := 0x2F
@[match_pattern] abbrev colon : UInt8 := 0x3A
@[match_pattern] abbrev semicolon : UInt8 := 0x3B
@[match_pattern] abbrev equals : UInt8 := 0x3D
@[match_pattern] abbrev question : UInt8 := 0x3F
@[match_pattern] abbrev atSign : UInt8 := 0x40
@[match_pattern] abbrev bracketOpen : UInt8 := 0x5B
@[match_pattern] abbrev backslash : UInt8 := 0x5C
@[match_pattern] abbrev bracketClose : UInt8 := 0x5D
@[match_pattern] abbrev underscore : UInt8 := 0x5F
@[match_pattern] abbrev braceOpen : UInt8 := 0x7B
@[match_pattern] abbrev bar : UInt8 := 0x7C
@[match_pattern] abbrev braceClose : UInt8 := 0x7D

def isUpper (c : UInt8) : Bool := 0x41 ≤ c && c ≤ 0x5A

def isLower (c : UInt8) : Bool := 0x61 ≤ c && c ≤ 0x7A

def isLetter (c : UInt8) : Bool := isUpper c || isLower c

def isDigit (c : UInt8) : Bool := 0x30 ≤ c && c ≤ 0x39

/-- A letter or an underscore, which may begin a word. -/
def isWordStart (c : UInt8) : Bool := isLetter c || c == underscore

def isWordPart (c : UInt8) : Bool := isWordStart c || isDigit c

def isBlank (c : UInt8) : Bool := c == space || c == tab

def isBreak (c : UInt8) : Bool := c == lf || c == cr

def isSpace (c : UInt8) : Bool := isBlank c || isBreak c

def isQuote (c : UInt8) : Bool := c == doubleQuote || c == singleQuote

def isExponentMark (c : UInt8) : Bool := c == 0x65 || c == 0x45

def isSign (c : UInt8) : Bool := c == plus || c == minus

/-- A byte of the form 10xxxxxx, which continues a UTF-8 sequence. -/
def isContinuation (c : UInt8) : Bool := 0x80 ≤ c && c ≤ 0xBF

def isPunctuation (c : UInt8) : Bool :=
  c == parenOpen || c == parenClose || c == braceOpen || c == braceClose || c == bracketOpen ||
    c == bracketClose || c == comma || c == semicolon || c == colon || c == dot || c == question

def toUpper (c : UInt8) : UInt8 := if isLower c then c - 0x20 else c

def toLower (c : UInt8) : UInt8 := if isUpper c then c + 0x20 else c

/-- The length that a lead byte announces for its UTF-8 sequence; a byte that leads none stands alone. -/
def sequenceLength (c : UInt8) : Nat :=
  if 0xF0 ≤ c && c ≤ 0xF7 then 4
  else if 0xE0 ≤ c && c ≤ 0xEF then 3
  else if 0xC0 ≤ c && c ≤ 0xDF then 2
  else 1

end Byte

namespace Bytes

def toUpper (text : Bytes) : Bytes := text.map Byte.toUpper

def toLower (text : Bytes) : Bytes := text.map Byte.toLower

/-- Equality up to the case of ASCII letters. -/
def sameWord : Bytes → Bytes → Bool
  | [], [] => true
  | a :: as, b :: bs => Byte.toUpper a == Byte.toUpper b && sameWord as bs
  | _, _ => false

/-- The number of leading bytes that satisfy `p`. -/
def run (p : UInt8 → Bool) (text : Bytes) : Nat := (text.takeWhile p).length

def trimEnd (p : UInt8 → Bool) (text : Bytes) : Bytes := (text.reverse.dropWhile p).reverse

def trim (p : UInt8 → Bool) (text : Bytes) : Bytes := trimEnd p (text.dropWhile p)

/-- The items with `separator` between them. No separator is written while the text is still empty,
so leading empty items leave no trace. -/
def joined (separator : Bytes) (items : List Bytes) : Bytes :=
  List.intercalate separator (items.dropWhile List.isEmpty)

/-- The text between line feeds; what follows the last one counts only if it is not empty. -/
def feedLines (text : Bytes) : List Bytes :=
  let pieces := text.splitOn Byte.lf
  if pieces.getLast? == some [] then pieces.dropLast else pieces

/-- A number in decimal digits. -/
def ofNat (n : Nat) : Bytes := (Nat.toDigits 10 n).map Char.toUInt8

end Bytes
end QueryService
