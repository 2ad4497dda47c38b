import QueryService.Token

/-!
# Cutting a text into tokens

Every text is a sequence of tokens without gaps: what fits no other kind becomes an unknown token, and
strings and comments may lack their end. `lexeme` decides how far the next token reaches from the
bytes ahead, and `tokenize` repeats it.
-/

namespace QueryService
namespace Lexer

/-- The kind of the next token and how many bytes it takes after its first one. -/
structure Lexeme where
  kind : TokenKind
  extra : Nat
  deriving DecidableEq, Repr

def operators : List Bytes :=
  ["=", "==", "!=", "<>", "<", ">", "<=", ">=", "+", "-", "*", "/", "%", "!", "||"].map ascii

def isOperator (text : Bytes) : Bool := operators.contains text

def nextIs (p : UInt8 → Bool) (rest : Bytes) : Bool := rest.head?.any p

/-- The length of a block comment after its opening: to the first `*/`, or to the end of the text. -/
def blockCommentTail : Bytes → Nat
  | [] => 0
  | Byte.star :: Byte.slash :: _ => 2
  | _ :: rest => blockCommentTail rest + 1

/-- The length of a string after its opening quote: through the closing one, or up to the end of the
line. A backslash escapes the next byte, unless that ends the line. -/
def stringTail (quote : UInt8) : Bytes → Nat
  | [] => 0
  | Byte.backslash :: next :: rest => if Byte.isBreak next then 1 else stringTail quote rest + 2
  | c :: rest =>
    if Byte.isBreak c then 0
    else if c == quote then 1
    else stringTail quote rest + 1

/-- The length of a fraction, if one starts here. -/
def fraction : Bytes → Nat
  | Byte.dot :: rest => if nextIs Byte.isDigit rest then 1 + Bytes.run Byte.isDigit rest else 0
  | _ => 0

/-- The length of an exponent, if one starts here. -/
def exponent : Bytes → Nat
  | mark :: rest =>
    if !Byte.isExponentMark mark then 0
    else if nextIs Byte.isDigit rest then 1 + Bytes.run Byte.isDigit rest
    else match rest with
      | sign :: digits =>
        if Byte.isSign sign && nextIs Byte.isDigit digits then 2 + Bytes.run Byte.isDigit digits else 0
      | [] => 0
  | [] => 0

/-- The length of a number after its first digit. Letters that follow belong to it, so `12ab` is one
malformed number. -/
def numberTail (rest : Bytes) : Nat :=
  let whole := Bytes.run Byte.isDigit rest
  let fractional := whole + fraction (rest.drop whole)
  let scaled := fractional + exponent (rest.drop fractional)
  scaled + Bytes.run Byte.isWordPart (rest.drop scaled)

/-- The length of the name that follows the sigil of a placeholder. -/
def placeholderTail (rest : Bytes) : Nat :=
  if nextIs Byte.isDigit rest then Bytes.run Byte.isDigit rest else Bytes.run Byte.isWordPart rest

def startsPlaceholder (c : UInt8) (rest : Bytes) : Bool :=
  c == Byte.atSign && nextIs Byte.isWordStart rest ||
    c == Byte.dollar && nextIs (fun d => Byte.isWordStart d || Byte.isDigit d) rest

/-- The continuation bytes of the sequence that `c` leads, or none if it is not complete. -/
def sequenceTail (c : UInt8) (rest : Bytes) : Nat :=
  let wanted := Byte.sequenceLength c - 1
  let found := rest.take wanted
  if found.length = wanted ∧ found.all Byte.isContinuation then wanted else 0

def symbol (c : UInt8) (rest : Bytes) : Lexeme :=
  if nextIs (fun d => isOperator [c, d]) rest then ⟨.operator, 1⟩
  else if Byte.isPunctuation c then ⟨.punctuation, 0⟩
  else if isOperator [c] then ⟨.operator, 0⟩
  else ⟨.unknown, sequenceTail c rest⟩

/-- The token that starts with `c` when `rest` follows; a word counts as an identifier here. -/
def lexeme (c : UInt8) (rest : Bytes) : Lexeme :=
  if Byte.isBlank c then ⟨.whitespace, Bytes.run Byte.isBlank rest⟩
  else if Byte.isBreak c then
    ⟨.newline, if c == Byte.cr && nextIs (· == Byte.lf) rest then 1 else 0⟩
  else if (c == Byte.minus || c == Byte.slash) && nextIs (· == c) rest then
    ⟨.comment, Bytes.run (!Byte.isBreak ·) rest⟩
  else if c == Byte.slash && nextIs (· == Byte.star) rest then
    ⟨.comment, 1 + blockCommentTail rest.tail⟩
  else if Byte.isQuote c then ⟨.string, stringTail c rest⟩
  else if Byte.isDigit c then ⟨.number, numberTail rest⟩
  else if Byte.isWordStart c then ⟨.identifier, Bytes.run Byte.isWordPart rest⟩
  else if startsPlaceholder c rest then ⟨.placeholder, placeholderTail rest⟩
  else symbol c rest

/-- A token of this kind and text; a word that spells a keyword is a keyword token. -/
def token (kind : TokenKind) (value : Bytes) (start : Nat) (position : Position) : Token :=
  let keyword := if kind = .identifier then Keyword.lookup value else none
  { kind := if keyword.isSome then .keyword else kind
    value, start, stop := start + value.length, position, keyword }

/-- The tokens of a text that begins `start` bytes in, at `position`. -/
def tokensFrom (start : Nat) (position : Position) : Bytes → List Token
  | [] => []
  | c :: rest =>
    let next := lexeme c rest
    let value := c :: rest.take next.extra
    token next.kind value start position ::
      tokensFrom (start + value.length) (position.advance value.length (c :: rest))
        (rest.drop next.extra)
termination_by text => text.length
decreasing_by simp only [List.length_drop, List.length_cons]; omega

end Lexer

def tokenize (text : Bytes) : List Token := Lexer.tokensFrom 0 {} text

end QueryService
