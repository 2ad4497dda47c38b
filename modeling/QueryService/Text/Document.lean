import QueryService.Text.Position

/-!
# Editable documents

A document is its lines, a cursor and selections. Insertion makes room for itself, so it works at any
position; moving the cursor and deleting need positions inside the document.
-/

namespace QueryService

/-- A range with its caret; a selection made by `Document.select` has `start` before `stop`. -/
structure Selection where
  start : Position
  stop : Position
  active : Position
  deriving DecidableEq, Repr

structure Document where
  lines : List Bytes := [[]]
  cursor : Position := {}
  selections : List Selection := []
  deriving DecidableEq, Repr

/-- A coordinate beyond the last one that a document has. -/
inductive OutOfRange where
  | line (given last : Nat)
  | column (given last : Nat)
  deriving DecidableEq, Repr

def OutOfRange.message (e : OutOfRange) : Bytes :=
  let bounds (axis : String) (given last : Nat) :=
    ascii axis ++ Bytes.ofNat given ++ ascii " out of bounds (0 to " ++ Bytes.ofNat last ++ ascii ")"
  match e with
  | .line given last => bounds "line " given last
  | .column given last => bounds "column " given last

namespace Document

def ofText (text : Bytes) : Document := { lines := splitLines text }

def text (d : Document) : Bytes := joinLines d.lines

def lineCount (d : Document) : Nat := d.lines.length

/-- The text of a line, empty beyond the last one. -/
def lineText (d : Document) (index : Nat) : Bytes := d.lines.getD index []

def line (d : Document) (index : Nat) : Except OutOfRange Bytes :=
  if index < d.lineCount then .ok (d.lineText index) else .error (.line index (d.lineCount - 1))

/-- Whether a position is inside the document, its lines tested before its columns. -/
def check (d : Document) (p : Position) : Except OutOfRange Unit :=
  if d.lineCount ≤ p.line then .error (.line p.line (d.lineCount - 1))
  else if (d.lineText p.line).length < p.column then
    .error (.column p.column (d.lineText p.line).length)
  else .ok ()

/-- The nearest position inside the document, first in lines and then in columns. -/
def clamp (d : Document) (p : Position) : Position :=
  let line := min p.line (d.lineCount - 1)
  ⟨line, min p.column (d.lineText line).length⟩

/-- The pieces with `front` put before the first and `back` behind the last. -/
def enclose (front back : Bytes) : List Bytes → List Bytes
  | [] => [front ++ back]
  | [piece] => [front ++ piece ++ back]
  | piece :: next :: more => (front ++ piece) :: enclose [] back (next :: more)

/-- Inserts `text` at `p`, after adding the empty lines and the spaces that `p` needs to exist. The
cursor goes to the end of the inserted text. -/
def insert (d : Document) (p : Position) (text : Bytes) : Document :=
  let lines := d.lines ++ List.replicate (p.line + 1 - d.lineCount) []
  let target := lines.getD p.line []
  let target := target ++ List.replicate (p.column - target.length) Byte.space
  let pieces := splitLines text
  let last := (pieces.getLast?.getD []).length
  { d with
    lines := lines.take p.line ++ enclose (target.take p.column) (target.drop p.column) pieces ++
      lines.drop (p.line + 1)
    cursor := Position.within ⟨pieces.length - 1, last⟩ p }

/-- Removes the text between two positions, given in either order. -/
def delete (d : Document) (a b : Position) : Except OutOfRange Document := do
  d.check a
  d.check b
  let (first, last) := if b.before a then (b, a) else (a, b)
  let line := (d.lineText first.line).take first.column ++ (d.lineText last.line).drop last.column
  return { d with
    lines := d.lines.take first.line ++ line :: d.lines.drop (last.line + 1)
    cursor := first }

def moveCursor (d : Document) (p : Position) : Except OutOfRange Document := do
  d.check p
  return { d with cursor := p }

/-- One selection between two positions, clamped and ordered, with its caret at the later end. -/
def select (d : Document) (a b : Position) : Document :=
  let a := d.clamp a
  let b := d.clamp b
  let (first, last) := if b.before a then (b, a) else (a, b)
  { d with selections := [⟨first, last, last⟩] }

def currentSelection (d : Document) : Option Selection := d.selections.head?

def hasSelection (d : Document) : Bool := d.selections.any fun s => s.start != s.stop

/-- The text from `a` to `b`. Where `b` lies before `a`, it is the rest of `a`'s line, and if `b` is on
an earlier line, also the part of that line before `b`. -/
def between (d : Document) (a b : Position) : Bytes :=
  let tail := (d.lineText a.line).drop a.column
  if a.line = b.line then
    if b.column < a.column then tail else tail.take (b.column - a.column)
  else
    joinLines (tail :: (d.lines.take b.line).drop (a.line + 1) ++
      [(d.lineText b.line).take b.column])

def selectedText (d : Document) : Bytes :=
  match d.currentSelection with
  | none => []
  | some s => if s.start = s.stop then [] else d.between (d.clamp s.start) (d.clamp s.stop)

/-- The text before a position; beyond the last line that is every line with a break after it. -/
def textUpTo (d : Document) (p : Position) : Bytes :=
  (d.lines.take p.line).flatMap (· ++ [Byte.lf]) ++ (d.lineText p.line).take p.column

/-! ### Commands -/

inductive Command where
  | insert (place : Position) (text : Bytes)
  | delete (a b : Position)
  | moveCursor (place : Position)
  | line (index : Nat)
  | select (a b : Position)
  | setSelections (selections : List Selection)
  | clearSelections
  | currentSelection
  | hasSelection
  | selectedText
  | text
  | textUpTo (p : Position)
  deriving DecidableEq, Repr

inductive Reply where
  | done
  | text (value : Bytes)
  | flag (value : Bool)
  | selection (value : Option Selection)
  | refused (reason : OutOfRange)
  deriving DecidableEq, Repr

/-- Carries out a command; one that is refused leaves the document as it is. -/
def perform (d : Document) : Command → Document × Reply
  | .insert p text => (d.insert p text, .done)
  | .delete a b => settle (d.delete a b)
  | .moveCursor p => settle (d.moveCursor p)
  | .line index =>
    match d.line index with
    | .ok text => (d, .text text)
    | .error reason => (d, .refused reason)
  | .select a b => (d.select a b, .done)
  | .setSelections selections => ({ d with selections }, .done)
  | .clearSelections => ({ d with selections := [] }, .done)
  | .currentSelection => (d, .selection d.currentSelection)
  | .hasSelection => (d, .flag d.hasSelection)
  | .selectedText => (d, .text d.selectedText)
  | .text => (d, .text d.text)
  | .textUpTo p => (d, .text (d.textUpTo p))
where
  settle : Except OutOfRange Document → Document × Reply
    | .ok changed => (changed, .done)
    | .error reason => (d, .refused reason)

end Document
end QueryService
