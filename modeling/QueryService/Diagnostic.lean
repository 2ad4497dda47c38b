import QueryService.Token

/-!
# Diagnostics

A diagnostic names a fault, the bytes it concerns and a remedy.
-/

namespace QueryService

/-- The faults that are reported: of single tokens, of the shape of a statement, and of its alignment
with a rule. -/
inductive Fault where
  | invalidToken | unterminatedString | invalidNumber | unterminatedComment
  | emptyStatement | unrecognizedCommand | selectMissingTarget | selectMissingFrom
  | selectInvalidSequence | insertMissingInto | updateMissingSet | updateMissingBundle
  | deleteMissingFrom | addMissingTo | createMissingObject
  | unexpectedToken | syntaxError | incompleteStatement
  deriving DecidableEq, Repr

/-- The stable code of a fault. -/
def Fault.code : Fault → Bytes
  | .invalidToken => ascii "Q1001"
  | .unterminatedString => ascii "Q1002"
  | .invalidNumber => ascii "Q1003"
  | .unterminatedComment => ascii "Q1004"
  | .emptyStatement => ascii "Q2001"
  | .unrecognizedCommand => ascii "Q2002"
  | .selectMissingTarget => ascii "Q2101"
  | .selectMissingFrom => ascii "Q2102"
  | .selectInvalidSequence => ascii "Q2103"
  | .insertMissingInto => ascii "Q2201"
  | .updateMissingSet => ascii "Q2301"
  | .updateMissingBundle => ascii "Q2302"
  | .deleteMissingFrom => ascii "Q2401"
  | .addMissingTo => ascii "Q2501"
  | .createMissingObject => ascii "Q2601"
  | .unexpectedToken => ascii "Q3001"
  | .syntaxError => ascii "Q3002"
  | .incompleteStatement => ascii "Q3003"

structure Diagnostic where
  fault : Fault
  message : Bytes
  position : Position
  length : Nat
  source : Bytes
  suggestion : Bytes
  deriving DecidableEq, Repr

namespace Diagnostic

/-- A diagnostic about a token; it underlines at least one byte. -/
def on (t : Token) (fault : Fault) (message suggestion : Bytes) : Diagnostic :=
  { fault, message, position := t.position, length := max t.value.length 1, source := t.value,
    suggestion }

/-- A diagnostic about something that is missing after a token. -/
def after (t : Token) (fault : Fault) (message source suggestion : Bytes) : Diagnostic :=
  { fault, message, position := ⟨t.line, t.column + t.value.length⟩, length := 1, source, suggestion }

def shiftLines (lines : Nat) (d : Diagnostic) : Diagnostic :=
  { d with position := ⟨d.position.line + lines, d.position.column⟩ }

end Diagnostic
end QueryService
