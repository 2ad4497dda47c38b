import QueryService.Text.Bytes

/-!
# Lines and columns

A line feed, a carriage return and the pair of both each end a line. Four readings of that rule live
here: stepping a position byte by byte, the table of line starts, the number of lines, and the lines
themselves.
-/

namespace QueryService

/-- A place in a text, both coordinates counted from 0 and columns in bytes. -/
structure Position where
  line : Nat := 0
  column : Nat := 0
  deriving DecidableEq, Repr

namespace Position

/-- Positions in reading order. -/
def before (p q : Position) : Bool := p.line < q.line || p.line == q.line && p.column < q.column

/-- The position that `p`, counted from the start of a passage, has in the text where the passage
starts at `origin`. -/
def within (p origin : Position) : Position :=
  if p.line = 0 then ⟨origin.line, origin.column + p.column⟩ else ⟨origin.line + p.line, p.column⟩

end Position

/-- Whether `c` ends its line when `rest` follows. A carriage return before a line feed does not: the
line feed does. -/
def endsLine (c : UInt8) (rest : Bytes) : Bool :=
  c == Byte.lf || c == Byte.cr && rest.head? != some Byte.lf

namespace Position

def step (p : Position) (c : UInt8) (rest : Bytes) : Position :=
  if endsLine c rest then ⟨p.line + 1, 0⟩ else ⟨p.line, p.column + 1⟩

/-- The position after the first `n` bytes of a text that starts at `p`. -/
def advance (p : Position) : Nat → Bytes → Position
  | n + 1, c :: rest => (p.step c rest).advance n rest
  | _, _ => p

end Position

/-- Offsets at which lines begin, but for the first line; the text itself begins at `offset`. -/
def laterLineStarts (offset : Nat) : Bytes → List Nat
  | [] => []
  | c :: rest =>
    let later := laterLineStarts (offset + 1) rest
    if endsLine c rest then (offset + 1) :: later else later

def lineStarts (text : Bytes) : List Nat := 0 :: laterLineStarts 0 text

/-- The position of an offset: its line is the last one that begins at or before it. -/
def locate (starts : List Nat) (offset : Nat) : Position :=
  let line := (starts.takeWhile (· ≤ offset)).length - 1
  ⟨line, offset - starts.getD line 0⟩

def lineCount : Bytes → Nat
  | [] => 1
  | Byte.cr :: Byte.lf :: rest => lineCount rest + 1
  | c :: rest => if Byte.isBreak c then lineCount rest + 1 else lineCount rest

/-- The lines of a text without their breaks. A break at the end opens one more, empty line. -/
def splitLines : Bytes → List Bytes
  | [] => [[]]
  | Byte.cr :: Byte.lf :: rest => [] :: splitLines rest
  | c :: rest =>
    if Byte.isBreak c then [] :: splitLines rest
    else match splitLines rest with
      | [] => [[c]]
      | line :: lines => (c :: line) :: lines

def joinLines (lines : List Bytes) : Bytes := List.intercalate [Byte.lf] lines

end QueryService
