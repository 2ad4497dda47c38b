import QueryService.Checker
import QueryService.Proofs.Highlighter.Coordinates

/-!
# What the checker reports

The checker validates all statements first and then looks up their reports, so a report that the cache
gave up in between is lost with its diagnostics. `check_reports_retained` says which statements this
leaves out: a statement is heard of exactly if its report may stay in the cache together with those of
the statements validated after it.
-/

namespace QueryService

open Highlighter

namespace Highlighter

variable {h : Highlighter}

theorem validations_keep (entries : List Entry) {s : Unit × Highlighter} {history : List Bytes}
    (faithful : s.2.tokenCache.Faithful QueryService.tokenize) (keeps : s.2.resultCache.Keeps reportOn history) :
    (entries.foldl (announce Checker.silent) s).2.resultCache.Keeps reportOn
        (history ++ entries.map (·.statement.code)) ∧
      (entries.foldl (announce Checker.silent) s).2.tokenCache.Faithful QueryService.tokenize ∧
      (entries.foldl (announce Checker.silent) s).2.resultCache.policy = s.2.resultCache.policy ∧
      (entries.foldl (announce Checker.silent) s).2.resultCache.weigh = s.2.resultCache.weigh := by
  induction entries generalizing s history with
  | nil => exact ⟨by rwa [List.map_nil, List.append_nil], faithful, rfl, rfl⟩
  | cons e entries ih =>
    have validated := validateEntry_spec faithful e
    have frame := s.2.resultCache.put_frame e.statement.code (reportOn e.statement.code)
    have results : (announce Checker.silent s e).2.resultCache =
        s.2.resultCache.put e.statement.code (reportOn e.statement.code) := validated.results
    have next := ih (s := announce Checker.silent s e) validated.faithful (results ▸ keeps.put e.statement.code)
    rw [results, frame.1, frame.2, List.append_assoc] at next
    exact next

/-- Validating a document of dirty statements puts a report on each into the cache, in order. -/
theorem validateAll_spec (sound : h.Sound) (dirty : ∀ s ∈ h.statements.statements, s.dirty = true)
    (empty : h.resultCache.Keeps reportOn []) :
    (validateAll Checker.silent ((), h)).2.statements.statements = h.statements.statements.map checked ∧
      (validateAll Checker.silent ((), h)).2.resultCache.Keeps reportOn (h.statements.statements.map (·.code)) ∧
      (validateAll Checker.silent ((), h)).2.tokenCache.Faithful QueryService.tokenize ∧
      (validateAll Checker.silent ((), h)).2.resultCache.policy = h.resultCache.policy ∧
      (validateAll Checker.silent ((), h)).2.resultCache.weigh = h.resultCache.weigh := by
  have all : h.statements.entries.filter (·.statement.dirty) = h.statements.entries :=
    List.filter_eq_self.mpr fun e member => dirty e.statement (List.mem_map_of_mem member)
  have run : validateAll Checker.silent ((), h) =
      h.statements.entries.foldl (announce Checker.silent) ((), { h with scheduler := h.scheduler.cancelKeys }) := by
    unfold validateAll
    dsimp only
    rw [all]
  have codes : h.statements.statements.map (·.code) = h.statements.entries.map (·.statement.code) := by
    rw [Listing.statements, List.map_map]
    rfl
  refine ⟨validateAll_checks (a := ()) (fun _ _ => rfl) sound, ?_⟩
  rw [run, codes]
  exact validations_keep h.statements.entries (s := ((), { h with scheduler := h.scheduler.cancelKeys }))
    sound.tokens empty

/-! ### A document in a new highlighter -/

/-- A result cache that nothing was put into. -/
structure Unused (options : HighlighterOptions) (c : Cache Report) : Prop where
  entries : c.entries = []
  bytes : c.bytes = 0
  policy : c.policy = options.cache
  weigh : c.weigh = Weight.result

theorem Unused.get {options : HighlighterOptions} {c : Cache Report} (unused : Unused options c) (key : Bytes) :
    Unused options (c.get key).2 := by
  have missing : c.find? key = none := by
    rw [Cache.find?, unused.entries]
    rfl
  unfold Cache.get
  rw [missing]
  exact ⟨unused.entries, unused.bytes, unused.policy, unused.weigh⟩

theorem update_new (options : HighlighterOptions) (level : LogLevel) (text : Bytes) :
    ((new options level).update text).statements.statements = Statement.parse text ∧
      ((new options level).update text).Sound ∧ Unused options ((new options level).update text).resultCache := by
  have sound := sound_new options level
  obtain ⟨_, _, statements⟩ := update_spec sound.tokens text
  have untouched : (Statement.parse text).map (new options level).known = Statement.parse text :=
    map_eq_self fun _ _ => rfl
  exact ⟨statements.trans untouched, (update_evolves sound text).sound,
    update_results (fun c key unused => unused.get key) text ⟨rfl, rfl, rfl, rfl⟩⟩

end Highlighter

namespace Checker

/-- The diagnostics of a statement where it stands. -/
def faults (s : Statement) : List Diagnostic := analyze s.tokens (validate s.tokens) 0

/-- Whether the report on a statement of a text may stay in the cache together with the reports on the
codes that are validated after it. -/
def Retained (policy : CachePolicy) (text : Bytes) (s : Statement) : Prop :=
  policy.Allows ((Cache.upTo ((Statement.parse text).map (·.code)) s.code).map fun code =>
    Weight.result code (reportOn code))

instance (policy : CachePolicy) (text : Bytes) (s : Statement) : Decidable (Retained policy text s) :=
  inferInstanceAs (Decidable (CachePolicy.Allows _ _))

theorem inspect_found (settings : Settings) (text : Bytes) :
    (inspect settings text).1 =
      ((Statement.parse text).filter (Retained settings.cache text)).flatMap faults := by
  obtain ⟨statements, sound, unused⟩ := update_new (options settings) settings.level text
  have dirty : ∀ s ∈ ((new (options settings) settings.level).update text).statements.statements, s.dirty = true := by
    rw [statements]
    exact fun s member => (Statement.parse_tokens member).2
  obtain ⟨checked, keeps, faithful, policy, weigh⟩ :=
    validateAll_spec sound dirty (Cache.Keeps.empty reportOn unused.entries unused.bytes)
  rw [statements] at keeps
  rw [unused.policy] at policy
  rw [unused.weigh] at weigh
  unfold inspect
  dsimp only
  rw [diagnostics_spec faithful, checked, statements, List.flatMap_map]
  apply flatMap_eq_filter
  intro s member
  have weight : (validateAll silent ((), (new (options settings) settings.level).update text)).2.resultCache.weight
      reportOn = fun code => Weight.result code (reportOn code) := by
    funext code
    rw [Cache.weight, weigh]
  have kept := keeps.mem_keys_iff s.code
  rw [policy, weight] at kept
  have listed : s.code ∈ (Statement.parse text).map (·.code) := List.mem_map_of_mem member
  by_cases retained : Retained settings.cache text s
  · rw [if_pos (decide_eq_true retained), faults, ← placed_reportOn member]
    show placed s (Option.map _ (Cache.find? _ s.code)) = _
    rw [keeps.find?_of_mem (kept.mpr ⟨listed, retained⟩)]
    rfl
  · rw [if_neg (by simpa using retained)]
    show placed s (Option.map _ (Cache.find? _ s.code)) = _
    rw [Cache.find?_eq_none_iff.mpr fun held => retained (kept.mp held).2]
    rfl

theorem printed_ne_nil (file : Bytes) (d : Diagnostic) : printed file d ≠ [] := by
  unfold printed newline
  exact List.append_ne_nil_of_right_ne_nil _ (List.cons_ne_nil _ _)

theorem run_eq_check {env : Environment} {path text : Bytes} {settings : Settings}
    (arguments : env.arguments = [path]) (file : path ≠ ascii "--version")
    (loaded : Checker.settings env = .ok settings) (readable : env.content path = some text) :
    run env = check settings path text := by
  rw [run, arguments]
  dsimp only
  rw [if_neg file, loaded]
  dsimp only
  rw [readable]

/-- A run of the checker on a file prints the diagnostics of the retained statements, in order, and
succeeds if there are none. It is complete exactly if every statement with a fault is retained. -/
theorem check_reports_retained (env : Environment) {path text : Bytes} {settings : Settings}
    (arguments : env.arguments = [path]) (file : path ≠ ascii "--version")
    (loaded : Checker.settings env = .ok settings) (readable : env.content path = some text) :
    (run env).stdout = ((Statement.parse text).filter (Retained settings.cache text)).flatMap
        (fun s => (faults s).flatMap (printed path)) ∧
      ((run env).exitCode = 0 ↔ ∀ s ∈ Statement.parse text, Retained settings.cache text s → faults s = []) ∧
      (((run env).stdout = (Statement.parse text).flatMap (fun s => (faults s).flatMap (printed path)) ∧
          ((run env).exitCode = 0 ↔ ∀ s ∈ Statement.parse text, faults s = [])) ↔
        ∀ s ∈ Statement.parse text, faults s ≠ [] → Retained settings.cache text s) := by
  rw [run_eq_check arguments file loaded readable, check]
  dsimp only
  rw [inspect_found]
  have silent (s : Statement) : (faults s).flatMap (printed path) = [] ↔ faults s = [] := by
    rw [List.flatMap_eq_nil_iff]
    refine ⟨fun none => ?_, fun none d member => by rw [none] at member; cases member⟩
    exact List.eq_nil_iff_forall_not_mem.mpr fun d member => printed_ne_nil path d (none d member)
  have succeeds (found : List Diagnostic) : (if found.isEmpty then (0 : UInt8) else 1) = 0 ↔ found = [] := by
    cases found <;> simp
  have stdout := List.flatMap_assoc (l := (Statement.parse text).filter (Retained settings.cache text))
    (f := faults) (g := printed path)
  have exitCode : (if (((Statement.parse text).filter (Retained settings.cache text)).flatMap faults).isEmpty
      then (0 : UInt8) else 1) = 0 ↔
        ∀ s ∈ Statement.parse text, Retained settings.cache text s → faults s = [] := by
    rw [succeeds, List.flatMap_eq_nil_iff]
    simp only [List.mem_filter, decide_eq_true_eq, and_imp]
  refine ⟨stdout, exitCode, ?_⟩
  rw [stdout, flatMap_filter_eq_iff, exitCode]
  simp only [Ne, silent, decide_eq_true_eq]
  refine ⟨fun complete => complete.1, fun retained => ⟨retained, ?_⟩⟩
  constructor
  · intro none s member
    by_cases silent : faults s = []
    · exact silent
    · exact none s member (retained s member silent)
  · exact fun none s member _ => none s member

/-- A file of two statements, and settings that leave room for one report. -/
def crowded : Environment where
  arguments := [ascii "f.sql"]
  settingsPath := some (ascii "c.ini")
  content := fun path =>
    if path = ascii "f.sql" then some (ascii "bogus;SHOW USERS;")
    else if path = ascii "c.ini" then some (ascii "[editor]\ncache_max_entries = 1\n")
    else none

theorem crowded_run_unheard :
    crowded.arguments = [ascii "f.sql"] ∧ ascii "f.sql" ≠ ascii "--version" ∧
      Checker.settings crowded = .ok { cache := { maxEntries := 1 } } ∧
      crowded.content (ascii "f.sql") = some (ascii "bogus;SHOW USERS;") ∧
      (∃ s ∈ Statement.parse (ascii "bogus;SHOW USERS;"), faults s ≠ []) ∧ (run crowded).exitCode = 0 := by
  have file : ascii "f.sql" ≠ ascii "--version" := by decide +kernel
  have loaded : Checker.settings crowded = .ok { cache := { maxEntries := 1 } } := by decide +kernel
  have reports := check_reports_retained crowded rfl file loaded rfl
  exact ⟨rfl, file, loaded, rfl, by decide +kernel, reports.2.1.mpr (by decide +kernel)⟩

end Checker
end QueryService
