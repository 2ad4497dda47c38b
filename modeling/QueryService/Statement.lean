import QueryService.Token.Lexer

/-!
# Statements

A text is cut after each semicolon that is not inside a string or a comment. What lies between two
cuts, without the white space around it, is a statement; the last one may lack its semicolon.
-/

namespace QueryService

/-- What the next byte is part of. -/
inductive Passage where
  | code
  | string (quote : UInt8)
  | lineComment
  | blockComment
  deriving DecidableEq, Repr

namespace Passage

/-- The length of a text up to and with the semicolon that ends its first statement, or of all of it.
A string goes on over the end of a line, and a backslash in it escapes any byte. -/
def statementLength : Passage → Bytes → Nat
  | _, [] => 0
  | .code, [_] => 1
  | .code, c :: next :: rest =>
    if Byte.isQuote c then statementLength (.string c) (next :: rest) + 1
    else if (c == Byte.minus || c == Byte.slash) && next == c then statementLength .lineComment rest + 2
    else if c == Byte.slash && next == Byte.star then statementLength .blockComment rest + 2
    else if c == Byte.semicolon then 1
    else statementLength .code (next :: rest) + 1
  | .string _, [_] => 1
  | .string quote, c :: next :: rest =>
    if c == Byte.backslash then statementLength (.string quote) rest + 2
    else if c == quote then statementLength .code (next :: rest) + 1
    else statementLength (.string quote) (next :: rest) + 1
  | .lineComment, c :: rest =>
    statementLength (if Byte.isBreak c then .code else .lineComment) rest + 1
  | .blockComment, Byte.star :: Byte.slash :: rest => statementLength .code rest + 2
  | .blockComment, _ :: rest => statementLength .blockComment rest + 1

theorem statementLength_pos (p : Passage) {text : Bytes} (nonempty : text ≠ []) :
    0 < p.statementLength text := by
  fun_cases Passage.statementLength p text
  case case1 => contradiction
  all_goals omega

end Passage

/-- The text cut after each semicolon of code, every piece with its offset; the first one begins at
`offset`. -/
def segments (offset : Nat) : Bytes → List (Nat × Bytes)
  | [] => []
  | c :: rest =>
    let length := Passage.code.statementLength (c :: rest)
    (offset, (c :: rest).take length) :: segments (offset + length) ((c :: rest).drop length)
termination_by text => text.length
decreasing_by
  have := Passage.statementLength_pos .code (List.cons_ne_nil c rest)
  simp only [List.length_drop, List.length_cons]
  omega

/-- A statement and its place in the text. `first` is the position of its first byte and `last` the one
after its last. A dirty statement waits for validation. -/
structure Statement where
  code : Bytes
  start : Nat
  stop : Nat
  first : Position
  last : Position
  tokens : List Token
  dirty : Bool := true
  valid : Bool := false
  deriving DecidableEq, Repr

namespace Statement

/-- The statement with this code that begins `start` bytes in, at `origin`. -/
def ofCode (code : Bytes) (start : Nat) (origin : Position) : Statement :=
  let final := locate (lineStarts code) (code.length - 1)
  let past := if code.isEmpty then final else ⟨final.line, final.column + 1⟩
  { code, start, stop := start + code.length
    first := origin
    last := past.within origin
    tokens := (tokenize code).map (·.within start origin) }

/-- The statements of a text, all dirty. -/
def parse (text : Bytes) : List Statement :=
  let starts := lineStarts text
  (segments 0 text).filterMap fun (offset, segment) =>
    let code := Bytes.trim Byte.isSpace segment
    let start := offset + Bytes.run Byte.isSpace segment
    if code.isEmpty then none else some (ofCode code start (locate starts start))

def onLine (s : Statement) (line : Nat) : Bool := s.first.line ≤ line && line ≤ s.last.line

/-- Whether a cursor at `p` touches the statement; the place just after it counts. -/
def touches (s : Statement) (p : Position) : Bool := !p.before s.first && !s.last.before p

end Statement
end QueryService
