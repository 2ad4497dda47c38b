import QueryService.Token

/-!
# Colors

Tokens are colored by category; a theme gives each category its color, and one more to errors.
-/

namespace QueryService

structure Color where
  red : UInt8
  green : UInt8
  blue : UInt8
  alpha : UInt8 := 255
  deriving DecidableEq, Repr

namespace Color

def hexValue? (c : UInt8) : Option UInt8 :=
  if Byte.isDigit c then some (c - 0x30)
  else if 0x61 ≤ c && c ≤ 0x66 then some (c - 0x61 + 10)
  else if 0x41 ≤ c && c ≤ 0x46 then some (c - 0x41 + 10)
  else none

/-- The byte that two hexadecimal digits write. -/
def channel? (high low : UInt8) : Option UInt8 := do
  return (← hexValue? high) * 16 + (← hexValue? low)

/-- An opaque color from six hexadecimal digits, of either case and with or without a hash before them. -/
def parse? (text : Bytes) : Option Color :=
  match if text.head? = some Byte.hash then text.tail else text with
  | [r₁, r₀, g₁, g₀, b₁, b₀] => do
    return ⟨← channel? r₁ r₀, ← channel? g₁ g₀, ← channel? b₁ b₀, 255⟩
  | _ => none

def hexDigit (n : UInt8) : UInt8 := if n < 10 then 0x30 + n else 0x41 + (n - 10)

def formatChannel (n : UInt8) : Bytes := [hexDigit (n / 16), hexDigit (n % 16)]

/-- A hash and six digits in upper case; the opacity is not written. -/
def format (c : Color) : Bytes :=
  Byte.hash :: formatChannel c.red ++ formatChannel c.green ++ formatChannel c.blue

end Color

inductive ColorCategory where
  | keyword | identifier | literal | operator | punctuation | comment | string | number | placeholder
  | unknown | plain
  deriving DecidableEq, Repr

namespace ColorCategory

def all : List ColorCategory :=
  [.keyword, .identifier, .literal, .operator, .punctuation, .comment, .string, .number, .placeholder,
    .unknown, .plain]

def name : ColorCategory → Bytes
  | .keyword => ascii "keyword"
  | .identifier => ascii "identifier"
  | .literal => ascii "literal"
  | .operator => ascii "operator"
  | .punctuation => ascii "punctuation"
  | .comment => ascii "comment"
  | .string => ascii "string"
  | .number => ascii "number"
  | .placeholder => ascii "placeholder"
  | .unknown => ascii "unknown"
  | .plain => ascii "plain"

/-- White space has no color of its own. -/
def ofKind : TokenKind → ColorCategory
  | .keyword => .keyword
  | .identifier => .identifier
  | .literal => .literal
  | .operator => .operator
  | .punctuation => .punctuation
  | .comment => .comment
  | .string => .string
  | .number => .number
  | .placeholder => .placeholder
  | .unknown => .unknown
  | .whitespace | .newline => .plain

end ColorCategory

structure Theme where
  keyword : Color := ⟨0x56, 0x9C, 0xD6, 255⟩
  identifier : Color := ⟨0x9C, 0xDC, 0xFE, 255⟩
  literal : Color := ⟨0xCE, 0x91, 0x78, 255⟩
  operator : Color := ⟨0xD4, 0xD4, 0xD4, 255⟩
  punctuation : Color := ⟨0xD4, 0xD4, 0xD4, 255⟩
  comment : Color := ⟨0x6A, 0x99, 0x55, 255⟩
  string : Color := ⟨0xCE, 0x91, 0x78, 255⟩
  number : Color := ⟨0xB5, 0xCE, 0xA8, 255⟩
  placeholder : Color := ⟨0x4E, 0xC9, 0xB0, 255⟩
  unknown : Color := ⟨0xD4, 0xD4, 0xD4, 255⟩
  error : Color := ⟨0xFF, 0x00, 0x00, 255⟩
  deriving DecidableEq, Repr

namespace Theme

/-- Plain text has the color of identifiers. -/
def color (t : Theme) : ColorCategory → Color
  | .keyword => t.keyword
  | .identifier | .plain => t.identifier
  | .literal => t.literal
  | .operator => t.operator
  | .punctuation => t.punctuation
  | .comment => t.comment
  | .string => t.string
  | .number => t.number
  | .placeholder => t.placeholder
  | .unknown => t.unknown

/-- Sets the color with this name, if a theme has one of this name. -/
def set? (t : Theme) (name : Bytes) (color : Color) : Option Theme :=
  if name = ascii "keyword" then some { t with keyword := color }
  else if name = ascii "identifier" then some { t with identifier := color }
  else if name = ascii "literal" then some { t with literal := color }
  else if name = ascii "operator" then some { t with operator := color }
  else if name = ascii "punctuation" then some { t with punctuation := color }
  else if name = ascii "comment" then some { t with comment := color }
  else if name = ascii "string" then some { t with string := color }
  else if name = ascii "number" then some { t with number := color }
  else if name = ascii "placeholder" then some { t with placeholder := color }
  else if name = ascii "unknown" then some { t with unknown := color }
  else if name = ascii "error" then some { t with error := color }
  else none

end Theme
end QueryService
