import QueryService.Grammar.Rule

/-!
# Validation

A statement is aligned with the pattern of each candidate rule, from left to right and without going
back, and the first rule that it fits is its rule. A statement that fits none is reported against the
first candidate.
-/

namespace QueryService

/-- A token with its index in the token list. -/
structure Indexed where
  index : Nat
  token : Token
  deriving DecidableEq, Repr

/-- The significant tokens of a list, with their indices in it. -/
def significantIndexed (tokens : List Token) : List Indexed :=
  (tokens.zipIdx.map fun (token, index) => ⟨index, token⟩).filter (·.token.isSignificant)

/-- How far a statement and a pattern go together. -/
structure Alignment where
  /-- Tokens that stand where a required element refused them. -/
  misplaced : List (Indexed × Element) := []
  /-- Tokens beyond the end of the pattern. -/
  surplus : List Indexed := []
  /-- Elements beyond the end of the statement. -/
  remaining : List Element := []
  deriving DecidableEq, Repr

namespace Alignment

/-- A repeatable element keeps its place as long as it accepts the next token too. -/
def of : List Element → List Indexed → Alignment
  | pattern, [] => { remaining := pattern }
  | [], tokens => { surplus := tokens }
  | e :: pattern, t :: tokens =>
    if e.accepts t.token then
      if e.repeatable && tokens.head?.any (fun next => e.accepts next.token) then
        of (e :: pattern) tokens
      else of pattern tokens
    else if e.optional then of pattern (t :: tokens)
    else
      let later := of pattern tokens
      { later with misplaced := (t, e) :: later.misplaced }
termination_by pattern tokens => pattern.length + tokens.length

def required (a : Alignment) : List Element := a.remaining.filter (!·.optional)

def fits (a : Alignment) : Bool :=
  a.misplaced.isEmpty && a.surplus.isEmpty && a.required.isEmpty

/-- What the elements that were not reached ask for; an optional element also lets the one after it
stand here. -/
def completions : List Element → List Bytes
  | [] => []
  | e :: rest => e.wording.words ++ if e.optional then completions rest else []

end Alignment

/-- Why a statement fits no rule. -/
inductive Defect where
  | incomplete
  | missingCritical
  | invalidSequence
  deriving DecidableEq, Repr

def Defect.name : Defect → Bytes
  | .incomplete => ascii "incomplete"
  | .missingCritical => ascii "missing_critical"
  | .invalidSequence => ascii "invalid_sequence"

/-- What a failed statement lacks, noted for one of its lines. -/
structure Shortfall where
  line : Nat
  missing : List Bytes
  defect : Defect
  deriving DecidableEq, Repr

/-- The outcome of validation. Token indices and lines are in ascending order. -/
structure Report where
  valid : Bool := true
  rule : Option Rule := none
  invalidTokens : List Nat := []
  invalidLines : List Nat := []
  expected : List Bytes := []
  completions : List Bytes := []
  message : Option Bytes := none
  shortfalls : List Shortfall := []
  deriving DecidableEq, Repr

/-- The words of a statement in upper case, with spaces between them. -/
def statementText (tokens : List Token) : Bytes :=
  Bytes.joined [Byte.space] (tokens.map (Bytes.toUpper ·.value))

def linesOf (tokens : List Indexed) : List Nat := Ascending.ofList (tokens.map (·.token.line))

namespace Report

def ofAlignment (rule : Rule) (tokens : List Indexed) (a : Alignment) : Report :=
  let expected := (a.remaining.head?.map Element.expectation).getD []
  let completions := Alignment.completions a.remaining
  if a.fits then { rule := some rule, expected, completions }
  else
    let lines := linesOf tokens
    let missing := (a.misplaced.map (·.2) ++ a.required).map Element.describe
    let defect : Defect :=
      if !a.required.isEmpty then .incomplete
      else if !a.misplaced.isEmpty then .missingCritical
      else .invalidSequence
    { valid := false
      invalidTokens := a.misplaced.map (·.1.index) ++ a.surplus.map (·.index)
      invalidLines := lines
      expected, completions
      message := some (ascii "Statement doesn't match " ++ rule.name ++ ascii " pattern")
      shortfalls := lines.map (⟨·, missing, defect⟩) }

/-- The report on a statement that starts like none of the rules. -/
def unrecognized (first : Token) (tokens : List Indexed) : Report :=
  { valid := false
    invalidTokens := tokens.map (·.index)
    invalidLines := linesOf tokens
    expected := Rule.starters
    completions := Rule.starters
    message := some (ascii "No matching grammar rule found for statement")
    shortfalls := [⟨first.line, [ascii "Valid statement starter"], .invalidSequence⟩] }

end Report

/-- The report on a statement against one rule. -/
def validateAgainst (tokens : List Indexed) (rule : Rule) : Report :=
  Report.ofAlignment rule tokens (Alignment.of rule.pattern tokens)

/-- The report on the tokens of one statement. Without a significant token there is nothing to refuse. -/
def validate (tokens : List Token) : Report :=
  let significant := significantIndexed tokens
  match significant with
  | [] => {}
  | first :: _ =>
    match Rule.candidates (statementText (significant.map (·.token))) with
    | [] => .unrecognized first.token significant
    | candidate :: others =>
      let fits (rule : Rule) : Bool := (Alignment.of rule.pattern significant).fits
      validateAgainst significant (((candidate :: others).find? fits).getD candidate)

/-- What validation says on the way: the statement, and each rule that is tried until one fits. -/
def validationTrace (tokens : List Token) : List Bytes :=
  let significant := significantIndexed tokens
  if significant.isEmpty then []
  else
    let text := statementText (significant.map (·.token))
    let candidates := Rule.candidates text
    let tried (rule : Rule) : Bool × Bytes :=
      let fits := (Alignment.of rule.pattern significant).fits
      (fits, ascii "rule " ++ rule.name ++ if fits then ascii " matched" else ascii " rejected")
    let outcomes := candidates.map tried
    let rejected := outcomes.takeWhile (!·.1)
    let matched := (outcomes.dropWhile (!·.1)).take 1
    (ascii "statement text: " ++ text) ::
      if candidates.isEmpty then [ascii "no candidate rules"] else (rejected ++ matched).map (·.2)

/-- Whether a token is accepted when it follows the tokens before it. -/
def isTokenValid (token : Token) (before : List Token) : Bool :=
  !(validate (before ++ [token])).invalidTokens.contains before.length

def completions (tokens : List Token) : List Bytes := (validate tokens).completions

def supportedStatements : List Bytes := Rule.table.map (·.name)

end QueryService
