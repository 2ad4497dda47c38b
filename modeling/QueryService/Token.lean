import QueryService.Keyword
import QueryService.Text.Position

/-!
# Tokens

A token is a run of bytes of one kind, with its place in the text.
-/

namespace QueryService

inductive TokenKind where
  | keyword | identifier | literal | operator | punctuation | whitespace | newline | comment | string
  | number | placeholder | unknown
  deriving DecidableEq, Repr

namespace TokenKind

def all : List TokenKind :=
  [.keyword, .identifier, .literal, .operator, .punctuation, .whitespace, .newline, .comment, .string,
    .number, .placeholder, .unknown]

def name : TokenKind → Bytes
  | .keyword => ascii "keyword"
  | .identifier => ascii "identifier"
  | .literal => ascii "literal"
  | .operator => ascii "operator"
  | .punctuation => ascii "punctuation"
  | .whitespace => ascii "whitespace"
  | .newline => ascii "newline"
  | .comment => ascii "comment"
  | .string => ascii "string"
  | .number => ascii "number"
  | .placeholder => ascii "placeholder"
  | .unknown => ascii "unknown"

/-- Whether tokens of this kind mean something to the grammar. -/
def isSignificant : TokenKind → Bool
  | .whitespace | .newline | .comment => false
  | _ => true

end TokenKind

/-- A token covers the bytes from offset `start` up to `stop`; only a keyword token carries a keyword. -/
structure Token where
  kind : TokenKind
  value : Bytes
  start : Nat
  stop : Nat
  position : Position
  keyword : Option Keyword
  deriving DecidableEq, Repr

namespace Token

def line (t : Token) : Nat := t.position.line

def column (t : Token) : Nat := t.position.column

def isSignificant (t : Token) : Bool := t.kind.isSignificant

/-- A token of a passage, moved into the text where the passage starts at `origin`, `offset` bytes in. -/
def within (t : Token) (offset : Nat) (origin : Position) : Token :=
  { t with start := offset + t.start, stop := offset + t.stop, position := t.position.within origin }

end Token

def significantTokens (tokens : List Token) : List Token := tokens.filter Token.isSignificant

end QueryService
