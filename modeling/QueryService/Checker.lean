import QueryService.Highlighter
import QueryService.Settings

/-!
# The checker

The checker validates the statements of one file and prints a diagnostic for each fault, with a note
that tells how to mend it.
-/

namespace QueryService
namespace Checker

def version : Bytes := ascii "0.1.0"

/-- What a run of the checker can see: its arguments, the settings file that it is told of, and files. -/
structure Environment where
  arguments : List Bytes
  settingsPath : Option Bytes
  content : Bytes → Option Bytes

structure Outcome where
  exitCode : UInt8
  stdout : Bytes := []
  stderr : Bytes := []
  deriving DecidableEq, Repr

def newline : Bytes := [Byte.lf]

def usage : Bytes :=
  ascii "usage: syndrql-check <file.sql>" ++ newline ++
  ascii "       syndrql-check --version" ++ newline ++
  ascii "Reads settings from $SYNDRQL_CONFIG when set." ++ newline

/-- A diagnostic and its note, with places counted from 1. -/
def printed (file : Bytes) (d : Diagnostic) : Bytes :=
  file ++ ascii ":" ++ Bytes.ofNat (d.position.line + 1) ++ ascii ":" ++
    Bytes.ofNat (d.position.column + 1) ++ ascii ": error[" ++ d.fault.code ++ ascii "]: " ++ d.message ++
    newline ++ ascii "  note: " ++ d.suggestion ++ newline

def options (s : Settings) : HighlighterOptions :=
  { debounce := s.debounce.toNat, cache := s.cache, theme := s.theme }

/-- Nobody hears of the validations of a run. -/
def silent : Observer Unit := fun _ s => s

/-- The diagnostics of a text, and the highlighter that found them. -/
def inspect (settings : Settings) (text : Bytes) : List Diagnostic × Highlighter :=
  let h := (Highlighter.new (options settings) settings.level).update text
  (Highlighter.validateAll silent ((), h)).2.diagnostics

def check (settings : Settings) (file text : Bytes) : Outcome :=
  let (found, h) := inspect settings text
  let summary := Bytes.ofNat h.statements.entries.length ++ ascii " statements, " ++
    Bytes.ofNat found.length ++ ascii " diagnostics"
  { exitCode := if found.isEmpty then 0 else 1
    stdout := found.flatMap (printed file)
    stderr := (h.log.write .info (ascii "check") summary).text }

def cannotOpen (what path : Bytes) : Outcome :=
  { exitCode := 1, stderr := ascii "cannot open " ++ what ++ path ++ newline }

/-- The settings of a run, or the path of a settings file that is not there. -/
def settings (env : Environment) : Except Bytes Settings :=
  match env.settingsPath with
  | none => .ok {}
  | some path =>
    match Settings.loadFile? {} (env.content path) with
    | none => .error path
    | some settings => .ok settings

def run (env : Environment) : Outcome :=
  match env.arguments with
  | [argument] =>
    if argument = ascii "--version" then
      { exitCode := 0, stdout := ascii "syndrql-check " ++ version ++ newline }
    else match settings env with
      | .error path => cannotOpen (ascii "config ") path
      | .ok settings =>
        match env.content argument with
        | none => cannotOpen [] argument
        | some text => check settings argument text
  | _ => { exitCode := 1, stderr := usage }

end Checker
end QueryService
