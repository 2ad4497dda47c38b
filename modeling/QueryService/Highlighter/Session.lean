import QueryService.Highlighter.Spans
import QueryService.Text.Document

/-!
# Editing sessions

A session drives a highlighter with commands, together with a document to edit. A callback, if one is
installed, hears of every validation and answers with commands of its own; validations that these bring
about are heard by it too, down to a given depth, and only recorded below that.
-/

namespace QueryService
namespace Session

inductive Command where
  | tokenize (text : Bytes)
  | update (text : Bytes)
  | edit (place : Position)
  | document (command : Document.Command)
  | markDirty
  | clearCache
  | validateAll
  | result (code : Bytes)
  | diagnostics
  | diagnosticsOf (index : Nat)
  | spans (line : Nat)
  | lineCount
  | setColor (name color : Bytes)
  | setPolicy (policy : CachePolicy)
  | setDebounce (delay : Int)
  | setClock (time : Int)
  | run
  | nextDeadline
  | caches
  | cached (code : Bytes)
  | install (body : List Command)
  | uninstall
  deriving Repr

structure CacheCounts where
  size : Nat
  bytes : Nat
  hits : Nat
  misses : Nat
  evictions : Nat
  deriving DecidableEq, Repr

def CacheCounts.of {α : Type} (c : Cache α) : CacheCounts :=
  ⟨c.size, c.bytes, c.hits, c.misses, c.evictions⟩

inductive Reply where
  | done
  | tokens (value : List Token)
  | report (value : Option Report)
  | diagnostics (value : List Diagnostic)
  | spans (value : List StyledSpan)
  | number (value : Nat)
  | flag (value : Bool)
  | deadline (value : Option Int)
  | edited (text : Bytes) (cursor : Position)
  | refused (reason : OutOfRange)
  | caches (tokens results : CacheCounts)
  | cached (tokens result : Bool)
  deriving DecidableEq, Repr

/-- What belongs to the session besides the highlighter. `validated` notes the code and the number of
tokens of each validation that the callback heard of. -/
structure Client where
  document : Document := {}
  callback : Option (List Command) := none
  validated : List (Bytes × Nat) := []
  deriving Repr

/-- Carries out a command while `observe` hears of validations. An edit of the document that is refused
does not reach the highlighter. -/
def perform (observe : Observer Client) (s : Client × Highlighter) :
    Command → (Client × Highlighter) × Reply
  | .tokenize text =>
    let (tokens, h) := s.2.tokenize text
    ((s.1, h), .tokens tokens)
  | .update text => ((s.1, s.2.update text), .done)
  | .edit place => ((s.1, s.2.notifyEdit place), .done)
  | .document command =>
    match s.1.document.perform command with
    | (_, .refused reason) => (s, .refused reason)
    | (document, _) =>
      let h := (s.2.update document.text).notifyEdit document.cursor
      (({ s.1 with document }, h), .edited document.text document.cursor)
  | .markDirty => ((s.1, s.2.markDirty), .done)
  | .clearCache => ((s.1, s.2.clearCache), .done)
  | .validateAll => (Highlighter.validateAll observe s, .done)
  | .result code =>
    let (report, h) := s.2.result code
    ((s.1, h), .report report)
  | .diagnostics =>
    let (found, h) := s.2.diagnostics
    ((s.1, h), .diagnostics found)
  | .diagnosticsOf index =>
    match s.2.statements.entries[index]? with
    | none => (s, .diagnostics [])
    | some entry =>
      let (found, h) := s.2.diagnosticsOf entry.statement
      ((s.1, h), .diagnostics found)
  | .spans line =>
    let (spans, h) := s.2.lineSpans line
    ((s.1, h), .spans spans)
  | .lineCount => (s, .number s.2.lineCount)
  | .setColor name color =>
    match (Color.parse? color).bind (s.2.theme.set? name) with
    | none => (s, .flag false)
    | some theme => ((s.1, { s.2 with theme }), .flag true)
  | .setPolicy policy => ((s.1, s.2.setCachePolicy policy), .done)
  | .setDebounce delay => ((s.1, s.2.setDebounce delay), .done)
  | .setClock time => ((s.1, s.2.setClock time), .done)
  | .run =>
    let (count, s) := Highlighter.runDue observe s
    (s, .number count)
  | .nextDeadline => (s, .deadline s.2.scheduler.queue.nextDeadline)
  | .caches => (s, .caches (.of s.2.tokenCache) (.of s.2.resultCache))
  | .cached code => (s, .cached (s.2.tokenCache.contains code) (s.2.resultCache.contains code))
  | .install body => (({ s.1 with callback := some body }, s.2), .done)
  | .uninstall => (({ s.1 with callback := none }, s.2), .done)

def record (v : Validated) (c : Client) : Client :=
  { c with validated := c.validated ++ [(v.code, v.tokens.length)] }

/-- Tells the callback, if there is one. At depth 0 it only takes note. -/
def observer : Nat → Observer Client
  | 0 => fun v s => if s.1.callback.isSome then (record v s.1, s.2) else s
  | depth + 1 => fun v s =>
    match s.1.callback with
    | none => s
    | some body =>
      body.foldl (fun s command => (perform (observer depth) s command).1) (record v s.1, s.2)

/-- A command from outside. Notes of validations and log lines are those of this command alone. -/
def step (s : Client × Highlighter) (command : Command) : (Client × Highlighter) × Reply :=
  perform (observer 1)
    ({ s.1 with validated := [] }, { s.2 with log := { s.2.log with written := [] } }) command

end Session
end QueryService
