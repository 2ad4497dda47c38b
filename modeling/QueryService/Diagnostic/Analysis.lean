import QueryService.Diagnostic.Literal
import QueryService.Diagnostic.Shape

/-!
# Analysis

The diagnostics of a statement: first those of its single tokens, then, if validation refused it, those
of its shape, of its end and of the tokens out of place.
-/

namespace QueryService
namespace Analysis

def emptyStatement : Diagnostic :=
  { fault := .emptyStatement
    message := ascii "Empty statement. Expected a SyndrQL command."
    position := {}
    length := 1
    source := []
    suggestion := ascii "Add a valid SyndrQL statement (SELECT, ADD, UPDATE, DELETE, etc.)" }

/-- The statement stops where something required should follow. -/
def incompleteStatement (tokens : List Token) (last : Token) (report : Report) : List Diagnostic :=
  if report.shortfalls.any (·.defect == .incomplete) && !report.expected.isEmpty then
    let expected := Bytes.joined (ascii " or ") report.expected
    [.after last .incompleteStatement
      (ascii "Statement is incomplete. Expected " ++ expected ++ ascii ".") (statementText tokens)
      (ascii "Continue the statement with " ++ expected)]
  else []

/-- A word out of place may be a misspelt keyword. -/
def remedy (t : Token) : Bytes :=
  let keyword :=
    if t.kind = .identifier ∨ t.kind = .unknown then Keyword.suggest t.value else none
  match keyword with
  | some keyword => ascii "Did you mean " ++ keyword.lexeme ++ ascii "?"
  | none => ascii "Check spelling or refer to SyndrQL documentation"

def unexpectedToken (t : Token) : Diagnostic :=
  .on t .unexpectedToken (ascii "Unexpected token \"" ++ t.value ++ ascii "\".") (remedy t)

/-- Indices beyond the token list name no token. -/
def unexpectedTokens (tokens : List Token) (report : Report) : List Diagnostic :=
  report.invalidTokens.filterMap fun index => tokens[index]?.map unexpectedToken

def syntaxError (first : Token) : Diagnostic :=
  .on first .syntaxError (ascii "Syntax error in SyndrQL statement.")
    (ascii "Check statement structure and syntax")

def ofReport (tokens : List Token) (report : Report) : List Diagnostic :=
  if report.valid then []
  else match significantTokens tokens with
    | [] => [emptyStatement]
    | first :: rest =>
      let found := Shape.diagnose first rest ++
        incompleteStatement (first :: rest) (Shape.lastOf first rest) report ++
        unexpectedTokens tokens report
      -- A refused statement never goes without a diagnostic.
      if found.isEmpty then [syntaxError first] else found

end Analysis

/-- Diagnostics of the tokens by themselves, `firstLine` lines down. -/
def analyzeTokens (tokens : List Token) (firstLine : Nat) : List Diagnostic :=
  (literalDiagnostics tokens).map (.shiftLines firstLine)

/-- Diagnostics of a report on the tokens, `firstLine` lines down. -/
def analyzeReport (tokens : List Token) (report : Report) (firstLine : Nat) : List Diagnostic :=
  (Analysis.ofReport tokens report).map (.shiftLines firstLine)

def analyze (tokens : List Token) (report : Report) (firstLine : Nat) : List Diagnostic :=
  analyzeTokens tokens firstLine ++ analyzeReport tokens report firstLine

end QueryService
