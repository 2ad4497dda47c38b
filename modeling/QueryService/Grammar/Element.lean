import QueryService.Token

/-!
# Pattern elements

A statement pattern is a row of elements. An element admits a token by its terminal, which is the
grammar's view of kind and text, and by its wording.
-/

namespace QueryService

inductive Terminal where
  | keyword | identifier | stringLiteral | number | placeholder | operator | separator | parenOpen
  | parenClose | braceOpen | braceClose | bracketOpen | bracketClose | semicolon | comma | equals
  | wildcard
  deriving DecidableEq, Repr

def Terminal.label : Terminal → Bytes
  | .keyword => ascii "KEYWORD"
  | .identifier => ascii "IDENTIFIER"
  | .stringLiteral => ascii "STRING_LITERAL"
  | .number => ascii "NUMBER"
  | .placeholder => ascii "PLACEHOLDER"
  | .operator => ascii "OPERATOR"
  | .separator => ascii "SEPARATOR"
  | .parenOpen => ascii "PARENTHESIS_OPEN"
  | .parenClose => ascii "PARENTHESIS_CLOSE"
  | .braceOpen => ascii "BRACE_OPEN"
  | .braceClose => ascii "BRACE_CLOSE"
  | .bracketOpen => ascii "BRACKET_OPEN"
  | .bracketClose => ascii "BRACKET_CLOSE"
  | .semicolon => ascii "SEMICOLON"
  | .comma => ascii "COMMA"
  | .equals => ascii "EQUALS"
  | .wildcard => ascii "WILDCARD"

/-- The terminal of a punctuation mark. -/
def Terminal.ofMark : UInt8 → Option Terminal
  | Byte.parenOpen => some .parenOpen
  | Byte.parenClose => some .parenClose
  | Byte.braceOpen => some .braceOpen
  | Byte.braceClose => some .braceClose
  | Byte.bracketOpen => some .bracketOpen
  | Byte.bracketClose => some .bracketClose
  | Byte.semicolon => some .semicolon
  | Byte.comma => some .comma
  | Byte.dot | Byte.colon | Byte.question => some .separator
  | _ => none

namespace Token

/-- The terminal of an operator or punctuation token. The equals sign and the star have terminals of
their own, whichever kind they come as. -/
def symbolTerminal? (t : Token) : Option Terminal :=
  if t.value = [Byte.equals] then some .equals
  else if t.value = [Byte.star] then some .wildcard
  else if t.kind = .operator then some .operator
  else match t.value with
    | [mark] => Terminal.ofMark mark
    | _ => none

/-- The terminal of a token; trivia and unknown tokens have none, so no element admits them. -/
def terminal? (t : Token) : Option Terminal :=
  match t.kind with
  | .keyword => some .keyword
  | .identifier => some .identifier
  | .string | .literal => some .stringLiteral
  | .number => some .number
  | .placeholder => some .placeholder
  | .operator | .punctuation => t.symbolTerminal?
  | .whitespace | .newline | .comment | .unknown => none

def operandWords : List Bytes :=
  ["AND", "OR", "NOT", "IS", "NULL", "LIKE", "BETWEEN", "IN", "EXISTS", "TRUE", "FALSE"].map ascii

/-- Whether a keyword token may stand in an expression: function names and operand words may. -/
def isOperand (t : Token) : Bool :=
  t.keyword.any (·.category == .function) || operandWords.any (Bytes.sameWord t.value)

end Token

/-- What an element asks of the terminal; the last three admit several. -/
inductive Slot where
  | terminal (wanted : Terminal)
  | name
  | expression
  | record
  deriving DecidableEq, Repr

namespace Slot

def label : Slot → Bytes
  | .terminal wanted => wanted.label
  | .name => ascii "NAME"
  | .expression => ascii "EXPRESSION"
  | .record => ascii "RECORD"

def all : List Slot :=
  [Terminal.keyword, .identifier, .stringLiteral, .number, .placeholder, .operator, .separator,
    .parenOpen, .parenClose, .braceOpen, .braceClose, .bracketOpen, .bracketClose, .semicolon, .comma,
    .equals, .wildcard].map .terminal ++ [.name, .expression, .record]

def admits (slot : Slot) (t : Token) : Bool :=
  match t.terminal? with
  | none => false
  | some found =>
    match slot with
    | .terminal wanted => found == wanted
    | .name => found == .identifier || found == .stringLiteral
    | .expression =>
      match found with
      | .identifier | .stringLiteral | .number | .placeholder | .operator | .equals | .wildcard
      | .separator | .parenOpen | .parenClose | .comma => true
      | .keyword => t.isOperand
      | _ => false
    | .record =>
      match found with
      | .parenOpen | .parenClose | .bracketOpen | .bracketClose | .semicolon => false
      | _ => true

end Slot

/-- What an element asks of the text, up to case. -/
inductive Wording where
  | any
  | exactly (word : Bytes)
  | oneOf (words : List Bytes)
  deriving DecidableEq, Repr

namespace Wording

/-- A single word takes precedence over a choice; without either, any text will do. -/
def ofParts (word : Bytes) (choices : List Bytes) : Wording :=
  if !word.isEmpty then .exactly word
  else if !choices.isEmpty then .oneOf choices
  else .any

def admits (wording : Wording) (text : Bytes) : Bool :=
  match wording with
  | .any => true
  | .exactly word => Bytes.sameWord text word
  | .oneOf words => words.any (Bytes.sameWord text)

/-- The words that satisfy the wording, where they can be listed. -/
def words : Wording → List Bytes
  | .any => []
  | .exactly word => [word]
  | .oneOf words => words

end Wording

structure Element where
  slot : Slot
  wording : Wording := .any
  placeholder : Bytes := []
  optional : Bool := false
  repeatable : Bool := false
  deriving DecidableEq, Repr

namespace Element

def accepts (e : Element) (t : Token) : Bool := e.slot.admits t && e.wording.admits t.value

/-- What the element expects, for a reader: its wording, else its placeholder, else its slot. -/
def describe (e : Element) : Bytes :=
  match e.wording with
  | .exactly word => word
  | .oneOf words => Bytes.joined [Byte.bar] words
  | .any =>
    let title := if e.placeholder.isEmpty then e.slot.label else e.placeholder
    ascii "<" ++ title ++ ascii ">"

/-- What may be written where the element stands, one entry for each choice. -/
def expectation (e : Element) : List Bytes :=
  match e.wording with
  | .oneOf words => words
  | _ => [e.describe]

end Element
end QueryService
