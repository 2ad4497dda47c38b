import QueryService.Diagnostic.Spelling
import QueryService.Diagnostic
import QueryService.Grammar.Validation

/-!
# Faults in the shape of a statement

The first word of a statement says which words it cannot do without. A shape is checked on the
significant tokens `first :: rest`, the first word included.
-/

namespace QueryService
namespace Shape

def mentions (tokens : List Token) (word : String) : Bool :=
  tokens.any fun t => Bytes.sameWord t.value (ascii word)

/-- Whether the word after the first is this one. -/
def secondIs (rest : List Token) (word : String) : Bool :=
  rest.head?.any fun t => Bytes.sameWord t.value (ascii word)

def lastOf (first : Token) (rest : List Token) : Token := rest.getLastD first

def select (first : Token) (rest : List Token) : List Diagnostic :=
  let tokens := first :: rest
  let misused := tokens.find? fun t =>
    Bytes.sameWord t.value (ascii "ADD") || Bytes.sameWord t.value (ascii "SET")
  let sequence := misused.toList.map fun t =>
    .on t .selectInvalidSequence
      (ascii "\"" ++ t.value ++
        ascii "\" is not valid in a SELECT statement. Expected DOCUMENTS, *, or field names.")
      (ascii "Try SELECT DOCUMENTS FROM bundle_name;")
  let target :=
    if rest.isEmpty then
      [.after first .selectMissingTarget
        (ascii "SELECT statement is incomplete. Expected DOCUMENTS, *, or field names.")
        (ascii "SELECT") (ascii "Add DOCUMENTS or field names after SELECT")]
    else []
  -- Databases are selected by name, not from a bundle.
  let source :=
    if 1 < rest.length && !mentions tokens "FROM" && !secondIs rest "DATABASES" then
      [.after (lastOf first rest) .selectMissingFrom (ascii "SELECT statement missing FROM clause.")
        (statementText tokens) (ascii "Add FROM bundle_name")]
    else []
  sequence ++ target ++ source

def insert (first : Token) (rest : List Token) : List Diagnostic :=
  if mentions (first :: rest) "INTO" then []
  else
    [.after first .insertMissingInto (ascii "INSERT statement missing INTO clause.") (ascii "INSERT")
      (ascii "Add INTO bundle_name, or use ADD DOCUMENT TO BUNDLE")]

def update (first : Token) (rest : List Token) : List Diagnostic :=
  let tokens := first :: rest
  if secondIs rest "BUNDLE" then []
  else if secondIs rest "DOCUMENTS" then
    if mentions tokens "IN" && mentions tokens "BUNDLE" then []
    else
      [.after (rest.headD first) .updateMissingBundle
        (ascii "UPDATE DOCUMENTS statement missing IN BUNDLE clause.") (ascii "UPDATE DOCUMENTS")
        (ascii "Add IN BUNDLE bundle_name")]
  else if mentions tokens "SET" then []
  else
    [.after first .updateMissingSet (ascii "UPDATE statement missing SET clause.") (ascii "UPDATE")
      (ascii "Add SET field = value")]

def delete (first : Token) (rest : List Token) : List Diagnostic :=
  if secondIs rest "DATABASE" || secondIs rest "BUNDLE" || mentions (first :: rest) "FROM" then []
  else
    [.after first .deleteMissingFrom (ascii "DELETE statement missing FROM clause.") (ascii "DELETE")
      (ascii "Add FROM BUNDLE bundle_name")]

def add (first : Token) (rest : List Token) : List Diagnostic :=
  let tokens := first :: rest
  if mentions tokens "TO" then []
  else
    [.after (lastOf first rest) .addMissingTo (ascii "ADD statement missing TO clause.")
      (statementText tokens) (ascii "Use ADD DOCUMENT TO BUNDLE bundle_name WITH (...)")]

def create (first : Token) (rest : List Token) : List Diagnostic :=
  match rest with
  | [] =>
    [.after first .createMissingObject
      (ascii "CREATE statement is incomplete. Expected DATABASE, BUNDLE, or an index type.")
      (ascii "CREATE") (ascii "Add DATABASE, BUNDLE, BTREE INDEX, or HASH INDEX")]
  | object :: _ =>
    if ["DATABASE", "BUNDLE", "BTREE", "HASH"].any (secondIs rest) then []
    else
      [.on object .createMissingObject (ascii "\"" ++ object.value ++ ascii "\" cannot be created.")
        (ascii "Use CREATE DATABASE, CREATE BUNDLE, or CREATE BTREE/HASH INDEX")]

/-- A statement must begin with a starter. A first word within two edits of one is taken for it. -/
def command (first : Token) : List Diagnostic :=
  let word := Bytes.toUpper first.value
  if Rule.starters.contains word then []
  else
    let suggestion :=
      match Rule.starters.find? (editDistance word · ≤ 2) with
      | some starter => ascii "Did you mean " ++ starter ++ ascii "?"
      | none => ascii "Use " ++ Bytes.joined (ascii ", ") Rule.starters
    [.on first .unrecognizedCommand
      (ascii "\"" ++ first.value ++ ascii "\" is not a recognized SyndrQL command.") suggestion]

/-- The faults in the shape of the statement `first :: rest`. -/
def diagnose (first : Token) (rest : List Token) : List Diagnostic :=
  let word := Bytes.toUpper first.value
  if word = ascii "SELECT" then select first rest
  else if word = ascii "INSERT" then insert first rest
  else if word = ascii "UPDATE" then update first rest
  else if word = ascii "DELETE" then delete first rest
  else if word = ascii "ADD" then add first rest
  else if word = ascii "CREATE" then create first rest
  else command first

end Shape
end QueryService
