import QueryService.Statement

/-!
# Lists of statements

Each entry of a list has an identity of its own. A change replaces one entry by another with a new
identity and leaves the rest alone; a target that is no longer in the list changes nothing, however
much an entry of the list may look like it.
-/

namespace QueryService

structure Entry where
  identity : Nat
  statement : Statement
  deriving DecidableEq, Repr

/-- The entries in the order of the text; identities from `fresh` on have never been used. -/
structure Listing where
  entries : List Entry := []
  fresh : Nat := 0
  deriving DecidableEq, Repr

namespace Listing

/-- The statements of a text as entries that are all new. -/
def parse (fresh : Nat) (text : Bytes) : Listing :=
  let statements := Statement.parse text
  { entries := (statements.zipIdx fresh).map fun (statement, identity) => ⟨identity, statement⟩
    fresh := fresh + statements.length }

def replace (l : Listing) (target : Entry) (statement : Statement) : Listing :=
  if l.entries.any (·.identity == target.identity) then
    { entries := l.entries.map fun e => if e.identity = target.identity then ⟨l.fresh, statement⟩ else e
      fresh := l.fresh + 1 }
  else l

/-- Replaces a target by what `change` makes of it; without a target the list stays as it is. -/
def modify (l : Listing) (target : Option Entry) (change : Statement → Statement) : Listing :=
  match target with
  | none => l
  | some entry => l.replace entry (change entry.statement)

def markDirty (l : Listing) (target : Option Entry) : Listing :=
  l.modify target ({ · with dirty := true })

def markClean (l : Listing) (target : Option Entry) (valid : Bool) : Listing :=
  l.modify target ({ · with dirty := false, valid })

/-- Gives a statement other code at the same place; it keeps its validity but is dirty. -/
def updateCode (l : Listing) (target : Option Entry) (code : Bytes) : Listing :=
  l.modify target fun s => { Statement.ofCode code s.start s.first with valid := s.valid }

def atLine? (l : Listing) (line : Nat) : Option Entry := l.entries.find? (·.statement.onLine line)

/-- The statement that a cursor touches, or else the first one on its line. -/
def atPosition? (l : Listing) (p : Position) : Option Entry :=
  let onLine := l.entries.filter (·.statement.onLine p.line)
  (onLine.find? (·.statement.touches p)).or onLine.head?

end Listing
end QueryService
