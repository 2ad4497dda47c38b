import QueryService.Cache
import QueryService.Diagnostic.Analysis
import QueryService.Log
import QueryService.Statement.Listing
import QueryService.Theme
import QueryService.Timer.Scheduler

/-!
# Highlighting

A highlighter keeps the statements of a document with their validity. Tokens and reports are cached by
the code of the statement, so code that was seen before needs no second look. An edit makes the
statement under it dirty and starts its quiet period, after which it is validated.

Whoever wants to hear of validations is an observer with a state of its own, and may use the
highlighter while being told.
-/

namespace QueryService

/-- How a highlighter is to be set up. -/
structure HighlighterOptions where
  debounce : Int := 200
  cache : CachePolicy := {}
  theme : Theme := {}
  deriving DecidableEq, Repr

namespace Weight

/-- Bytes reckoned for a token, for a report and for a token index or a line number. -/
def token : Nat := 80
def report : Nat := 224
def index : Nat := 8

def total (texts : List Bytes) : Nat := texts.flatten.length

def tokens (key : Bytes) (tokens : List Token) : Nat :=
  key.length + tokens.length * token + total (tokens.map (·.value))

def result (key : Bytes) (r : Report) : Nat :=
  key.length + report + (r.invalidTokens.length + r.invalidLines.length) * index +
    total r.expected + total r.completions + (r.message.map List.length).getD 0

end Weight

/-- Pending validations are keyed by the offset at which the statement began when it was edited, and
look it up again by the position of the edit. -/
structure Highlighter where
  tokenCache : Cache (List Token)
  resultCache : Cache Report
  scheduler : Scheduler Nat Position
  theme : Theme
  log : Log := {}
  text : Bytes := []
  documentTokens : List Token := []
  lineCount : Nat := 1
  statements : Listing := {}
  passes : Nat := 0

/-- What an observer is told about a validation. -/
structure Validated where
  code : Bytes
  tokens : List Token

/-- What an observer with state `σ` does when it is told. -/
abbrev Observer (σ : Type) := Validated → σ × Highlighter → σ × Highlighter

namespace Highlighter

variable {σ : Type}

def new (options : HighlighterOptions) (level : LogLevel) : Highlighter where
  tokenCache := { policy := options.cache, weigh := Weight.tokens }
  resultCache := { policy := options.cache, weigh := Weight.result }
  scheduler := { delay := options.debounce }
  theme := options.theme
  log := { level }

def note (h : Highlighter) (component : String) (message : Bytes) : Highlighter :=
  { h with log := h.log.write .debug (ascii component) message }

/-- Notes how many entries a cache gave up, if any. -/
def noteEvictions (h : Highlighter) (cache : String) (before after : Nat) : Highlighter :=
  if after = before then h
  else h.note "highlight"
    (ascii cache ++ ascii " cache evicted " ++ Bytes.ofNat (after - before) ++ ascii " entries")

/-- The tokens of a code, from the cache where it has them. -/
def tokenize (h : Highlighter) (code : Bytes) : List Token × Highlighter :=
  let before := h.tokenCache.evictions
  match h.tokenCache.get code with
  | (some tokens, cache) => (tokens, { h with tokenCache := cache })
  | (none, cache) =>
    let tokens := QueryService.tokenize code
    let h := { h with tokenCache := cache.put code tokens }
    (tokens, h.noteEvictions "token" before h.tokenCache.evictions)

/-- Caches the tokens of a new statement, and takes over its validity if a report is cached. -/
def enroll (h : Highlighter) (entry : Entry) : Highlighter :=
  let code := entry.statement.code
  let tokenCache :=
    if h.tokenCache.contains code then h.tokenCache
    else h.tokenCache.put code (QueryService.tokenize code)
  let (report, resultCache) := h.resultCache.get code
  let statements :=
    match report with
    | none => h.statements
    | some report => h.statements.markClean (some entry) report.valid
  { h with tokenCache, resultCache, statements }

/-- Reads the statements of a new text. -/
def update (h : Highlighter) (text : Bytes) : Highlighter :=
  let (documentTokens, h) := h.tokenize text
  let parsed := Listing.parse h.statements.fresh text
  let h := { h with text, documentTokens, lineCount := QueryService.lineCount text, statements := parsed }
  let h := parsed.entries.foldl enroll h
  h.note "highlight"
    (ascii "document context: " ++ Bytes.ofNat h.statements.entries.length ++ ascii " statements, " ++
      Bytes.ofNat h.lineCount ++ ascii " lines")

/-- The statement at an edit becomes dirty, and its quiet period starts anew. -/
def notifyEdit (h : Highlighter) (p : Position) : Highlighter :=
  match h.statements.atPosition? p with
  | none => h
  | some entry =>
    { h with
      statements := h.statements.markDirty (some entry)
      scheduler := h.scheduler.trigger entry.statement.start p }

/-- Makes every statement dirty and forgets its report. -/
def markDirty (h : Highlighter) : Highlighter :=
  h.statements.entries.foldl
    (fun h entry =>
      { h with
        resultCache := h.resultCache.erase entry.statement.code
        statements := h.statements.markDirty (some entry) })
    h

def clearCache (h : Highlighter) : Highlighter :=
  { h with tokenCache := h.tokenCache.clear, resultCache := h.resultCache.clear }.note "highlight"
    (ascii "caches cleared")

/-- The report on a code, if it is cached. -/
def result (h : Highlighter) (code : Bytes) : Option Report × Highlighter :=
  let (report, resultCache) := h.resultCache.get code
  (report, { h with resultCache })

def setCachePolicy (h : Highlighter) (policy : CachePolicy) : Highlighter :=
  let tokensBefore := h.tokenCache.evictions
  let resultsBefore := h.resultCache.evictions
  let h := { h with
    tokenCache := h.tokenCache.setPolicy policy
    resultCache := h.resultCache.setPolicy policy }
  (h.noteEvictions "token" tokensBefore h.tokenCache.evictions).noteEvictions "result" resultsBefore
    h.resultCache.evictions

def setDebounce (h : Highlighter) (delay : Int) : Highlighter :=
  { h with scheduler := { h.scheduler with delay } }

def setClock (h : Highlighter) (time : Int) : Highlighter :=
  { h with scheduler := { h.scheduler with now := time } }

/-! ### Validation -/

/-- Validates the code of an entry. The entry becomes clean if it is still in the list. -/
def validateEntry (h : Highlighter) (entry : Entry) : Validated × Highlighter :=
  let code := entry.statement.code
  let (tokens, h) := h.tokenize code
  let report := validate tokens
  let h := (validationTrace tokens).foldl (fun h message => h.note "grammar" message) h
  let before := h.resultCache.evictions
  let h := { h with resultCache := h.resultCache.put code report }
  let h := h.noteEvictions "result" before h.resultCache.evictions
  let h := { h with
    statements := h.statements.markClean (some entry) report.valid
    passes := h.passes + 1 }
  let verdict := if report.valid then ascii "valid" else ascii "invalid"
  let line := Bytes.ofNat entry.statement.first.line
  (⟨code, tokens⟩,
    h.note "highlight" (ascii "validated statement at line " ++ line ++ ascii ": " ++ verdict))

/-- Validates an entry and tells the observer. -/
def announce (observe : Observer σ) (s : σ × Highlighter) (entry : Entry) : σ × Highlighter :=
  let (validated, h) := s.2.validateEntry entry
  observe validated (s.1, h)

/-- Validates at once every statement that is dirty now. Nothing stays pending. -/
def validateAll (observe : Observer σ) (s : σ × Highlighter) : σ × Highlighter :=
  let (a, h) := s
  let h := { h with scheduler := h.scheduler.cancelKeys }
  (h.statements.entries.filter (·.statement.dirty)).foldl (announce observe) (a, h)

/-- Validates the statement at a position, unless it is clean. -/
def validateAt (observe : Observer σ) (s : σ × Highlighter) (p : Position) : σ × Highlighter :=
  match s.2.statements.atPosition? p with
  | none => s
  | some entry => if entry.statement.dirty then announce observe s entry else s

/-- Fires a timer and counts it, unless it was cancelled since it was found due. -/
def fire (observe : Observer σ) (s : Nat × σ × Highlighter) (id : Nat) : Nat × σ × Highlighter :=
  let (count, a, h) := s
  match h.scheduler.take id with
  | none => s
  | some (p, scheduler) => (count + 1, validateAt observe (a, { h with scheduler }) p)

/-- Fires the timers that are due now, and answers how many there were. -/
def runDue (observe : Observer σ) (s : σ × Highlighter) : Nat × σ × Highlighter :=
  s.2.scheduler.due.foldl (fire observe) (0, s)

/-! ### Reading -/

/-- The diagnostics of a statement whose report is cached, at their places in the document. -/
def diagnosticsOf (h : Highlighter) (s : Statement) : List Diagnostic × Highlighter :=
  match h.result s.code with
  | (none, h) => ([], h)
  | (some report, h) =>
    let (tokens, h) := h.tokenize s.code
    -- Columns count from the start of the statement on its first line only.
    let place (d : Diagnostic) : Diagnostic :=
      if d.position.line = s.first.line then
        { d with position := ⟨d.position.line, d.position.column + s.first.column⟩ }
      else d
    ((analyze tokens report s.first.line).map place, h)

/-- The diagnostics of all statements, in the order of the document. -/
def diagnostics (h : Highlighter) : List Diagnostic × Highlighter :=
  h.statements.entries.foldl
    (fun (found, h) entry =>
      let (more, h) := h.diagnosticsOf entry.statement
      (found ++ more, h))
    ([], h)

end Highlighter
end QueryService
