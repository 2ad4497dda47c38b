import QueryService.Proofs.Highlighter.Coordinates

/-!
# Two records of a validation

That a statement was validated is recorded twice: it is clean, and its report is in the cache. What is
validated is found by the first record and what is reported by the second, so the diagnostics are complete
after everything was validated as long as no clean statement is without its report
(`validateAll_diagnostics`). Clearing the caches is what sets the records apart.
-/

namespace QueryService
namespace Highlighter

variable {σ : Type} {observe : Observer σ} {a : σ} {h h' h'' : Highlighter}

/-- The diagnostics are those of all statements. -/
def Complete (h : Highlighter) : Prop :=
  h.diagnostics.1 = h.statements.statements.flatMap fun s => analyze s.tokens (validate s.tokens) 0

/-- Once everything is validated there will be a report on the code: there is one, or a statement with
this code is yet to be validated. -/
def Recorded (h : Highlighter) (code : Bytes) : Prop :=
  h.resultCache.contains code = true ∨ ∃ s ∈ h.statements.statements, s.dirty = true ∧ s.code = code

instance (h : Highlighter) (code : Bytes) : Decidable (h.Recorded code) := inferInstanceAs (Decidable (_ ∨ _))

/-- Every clean statement has its report in the cache. -/
def Kept (h : Highlighter) : Prop :=
  ∀ s ∈ h.statements.statements, s.dirty = false → h.resultCache.contains s.code = true

theorem Kept.recorded (kept : h.Kept) {s : Statement} (member : s ∈ h.statements.statements) : h.Recorded s.code := by
  cases dirty : s.dirty with
  | true => exact Or.inr ⟨s, member, dirty, rfl⟩
  | false => exact Or.inl (kept s member dirty)

/-- The step from `h` to `h'` leaves a cache without limits, and a report to every clean statement. -/
structure Retains (h h' : Highlighter) : Prop where
  unlimited : h'.resultCache.policy = ⟨0, 0⟩
  kept : h.Kept → h'.Kept

theorem Retains.refl (unlimited : h.resultCache.policy = ⟨0, 0⟩) : h.Retains h := ⟨unlimited, id⟩

theorem Retains.trans (first : h.Retains h') (second : h'.Retains h'') : h.Retains h'' :=
  ⟨second.unlimited, second.kept ∘ first.kept⟩

/-! ### Operations that look up -/

/-- The step from `h` to `h'` changes neither the statements nor what is in the cache. -/
structure Looks (h h' : Highlighter) : Prop where
  statements : h'.statements = h.statements
  policy : h'.resultCache.policy = h.resultCache.policy
  found : ∀ key, h'.resultCache.find? key = h.resultCache.find? key

theorem Looks.refl (h : Highlighter) : h.Looks h := ⟨rfl, rfl, fun _ => rfl⟩

theorem Looks.trans (first : h.Looks h') (second : h'.Looks h'') : h.Looks h'' where
  statements := second.statements.trans first.statements
  policy := second.policy.trans first.policy
  found key := (second.found key).trans (first.found key)

theorem Looks.retains (looks : h.Looks h') (unlimited : h.resultCache.policy = ⟨0, 0⟩) : h.Retains h' := by
  refine ⟨looks.policy.trans unlimited, fun kept s member clean => ?_⟩
  rw [looks.statements] at member
  rw [Cache.contains, looks.found]
  exact kept s member clean

theorem Spares.looks (spared : h.Spares h') : h.Looks h' where
  statements := spared.statements
  policy := congrArg Cache.policy spared.results
  found key := congrArg (·.find? key) spared.results

theorem looks_result (h : Highlighter) (code : Bytes) : h.Looks (h.result code).2 where
  statements := rfl
  policy := Cache.get_policy h.resultCache code
  found key := Cache.find?_get h.resultCache key code

theorem looks_diagnosticsOf (h : Highlighter) (s : Statement) : h.Looks (h.diagnosticsOf s).2 := by
  have looked := looks_result h s.code
  unfold diagnosticsOf
  split
  · rename_i found
    rwa [found] at looked
  · rename_i found
    rw [found] at looked
    exact looked.trans (spares_tokenize _ _).looks

theorem looks_diagnostics (h : Highlighter) : h.Looks h.diagnostics.2 :=
  List.foldlRecOn (motive := fun t : List Diagnostic × Highlighter => h.Looks t.2) _ _ (.refl h)
    fun t looks e _ => looks.trans (looks_diagnosticsOf t.2 e.statement)

theorem looks_lineSpans (h : Highlighter) (line : Nat) : h.Looks (h.lineSpans line).2 := by
  unfold lineSpans
  split
  · exact .refl h
  · refine List.foldlRecOn (motive := fun t : List Statement × Highlighter => h.Looks t.2) _ _ (.refl h) ?_
    intro t looks e _
    refine looks.trans ?_
    dsimp only
    unfold failsOn
    split
    · exact .refl t.2
    · exact looks_result t.2 e.statement.code

/-! ### Operations that change the records -/

theorem kept_update (sound : h.Sound) (text : Bytes) : (h.update text).Kept :=
  fun _ member clean => (update_clean_iff sound text member).mp clean

theorem retains_update (sound : h.Sound) (unlimited : h.resultCache.policy = ⟨0, 0⟩) (text : Bytes) :
    h.Retains (h.update text) where
  unlimited := update_results (P := fun c => c.policy = ⟨0, 0⟩)
    (fun c key same => (Cache.get_policy c key).trans same) text unlimited
  kept _ := kept_update sound text

theorem retains_notifyEdit (unlimited : h.resultCache.policy = ⟨0, 0⟩) (p : Position) :
    h.Retains (h.notifyEdit p) := by
  unfold notifyEdit
  split
  · exact .refl unlimited
  · refine ⟨unlimited, fun kept s member clean => ?_⟩
    rcases Listing.mem_replace member with rfl | listed
    · cases clean
    · exact kept s listed clean

theorem markDirty_statements (numbered : h.statements.Numbered) :
    h.markDirty.statements.statements = h.statements.statements.map soiled := by
  let step (h : Highlighter) (e : Entry) : Highlighter :=
    { h with
      resultCache := h.resultCache.erase e.statement.code
      statements := h.statements.markDirty (some e) }
  have acts (h : Highlighter) (e : Entry) (_ : True) :
      (step h e).statements = h.statements.replace e (soiled e.statement) ∨
        (step h e).statements = h.statements ∧ soiled e.statement = e.statement := Or.inl rfl
  have pass := Listing.statements_foldl step Highlighter.statements (fun _ => True) (fun _ _ _ => trivial) acts
    trivial numbered [] (List.nil_append h.statements.entries).symm
  refine pass.2.trans ?_
  rw [Listing.statements, List.map_map]
  rfl

theorem kept_markDirty (numbered : h.statements.Numbered) : h.markDirty.Kept := by
  intro s member clean
  rw [markDirty_statements numbered] at member
  obtain ⟨_, _, rfl⟩ := List.mem_map.mp member
  cases clean

theorem retains_markDirty (numbered : h.statements.Numbered) (unlimited : h.resultCache.policy = ⟨0, 0⟩) :
    h.Retains h.markDirty where
  unlimited := List.foldlRecOn (motive := fun h' : Highlighter => h'.resultCache.policy = ⟨0, 0⟩) _ _ unlimited
    fun h' same e _ => (Cache.erase_policy h'.resultCache e.statement.code).trans same
  kept _ := kept_markDirty numbered

theorem looks_setCachePolicy (unlimited : h.resultCache.policy = ⟨0, 0⟩) : h.Looks (h.setCachePolicy ⟨0, 0⟩) := by
  have results : (h.setCachePolicy ⟨0, 0⟩).resultCache = h.resultCache.setPolicy ⟨0, 0⟩ := by
    unfold setCachePolicy
    dsimp only
    rw [(spares_noteEvictions _ _ _ _).results, (spares_noteEvictions _ _ _ _).results]
  rw [Cache.setPolicy, Cache.evict_of_unlimited rfl] at results
  refine ⟨?_, ?_, fun key => ?_⟩
  · unfold setCachePolicy
    dsimp only
    rw [(spares_noteEvictions _ _ _ _).statements, (spares_noteEvictions _ _ _ _).statements]
  · rw [results, unlimited]
  · rw [results]
    rfl

/-! ### Validation -/

theorem retains_validateEntry (faithful : h.tokenCache.Faithful QueryService.tokenize)
    (unlimited : h.resultCache.policy = ⟨0, 0⟩) (e : Entry) : h.Retains (h.validateEntry e).2 := by
  have validates := validateEntry_spec faithful e
  refine ⟨?_, fun kept s member clean => ?_⟩
  · rw [validates.results, (Cache.put_frame _ _ _).1, unlimited]
  · rw [validates.results, Cache.contains_put unlimited]
    rw [validates.statements] at member
    rcases Listing.mem_replace member with rfl | listed
    · exact Or.inl rfl
    · exact Or.inr (kept s listed clean)

theorem validations_contain (quiet : QuietAt observe a) (faithful : h.tokenCache.Faithful QueryService.tokenize)
    (unlimited : h.resultCache.policy = ⟨0, 0⟩) (entries : List Entry) :
    (entries.foldl (announce observe) (a, h)).1 = a ∧
      (entries.foldl (announce observe) (a, h)).2.resultCache.policy = ⟨0, 0⟩ ∧
      ∀ code, (entries.foldl (announce observe) (a, h)).2.resultCache.contains code = true ↔
        h.resultCache.contains code = true ∨ ∃ e ∈ entries, e.statement.code = code := by
  induction entries generalizing h with
  | nil => exact ⟨rfl, unlimited, fun code => by simp⟩
  | cons e entries ih =>
    have validates := validateEntry_spec faithful e
    obtain ⟨state, policy, contains⟩ :=
      ih validates.faithful (retains_validateEntry faithful unlimited e).unlimited
    rw [List.foldl_cons, announce_quiet quiet]
    refine ⟨state, policy, fun code => ?_⟩
    rw [contains, validates.results, Cache.contains_put unlimited]
    rw [List.exists_mem_cons_iff, or_assoc, or_left_comm, eq_comm (a := code)]

/-- The step from `h` to `h'` checks all statements, and there is a report on what was to be recorded. -/
structure Settles (h h' : Highlighter) : Prop where
  statements : h'.statements.statements = h.statements.statements.map checked
  recorded : ∀ code, h'.resultCache.contains code = true ↔ h.Recorded code

theorem validateAll_quiet (quiet : QuietAt observe a) (sound : h.Sound)
    (unlimited : h.resultCache.policy = ⟨0, 0⟩) :
    (validateAll observe (a, h)).1 = a ∧ (validateAll observe (a, h)).2.resultCache.policy = ⟨0, 0⟩ ∧
      h.Settles (validateAll observe (a, h)).2 := by
  have start : { h with scheduler := h.scheduler.cancelKeys }.tokenCache.Faithful QueryService.tokenize := sound.tokens
  have pass := validations_contain (h := { h with scheduler := h.scheduler.cancelKeys }) quiet start unlimited
    (h.statements.entries.filter (·.statement.dirty))
  refine ⟨pass.1, pass.2.1, validateAll_checks quiet sound, fun code => (pass.2.2 code).trans (or_congr_right ?_)⟩
  simp only [Listing.statements, List.mem_filter, List.mem_map, exists_exists_and_eq_and, and_assoc]

theorem Settles.recorded_of_kept (settles : h.Settles h') (kept : h.Kept) {s : Statement}
    (member : s ∈ h'.statements.statements) : h.Recorded s.code := by
  rw [settles.statements] at member
  obtain ⟨old, listed, rfl⟩ := List.mem_map.mp member
  show h.Recorded old.code
  exact kept.recorded listed

theorem Settles.kept (settles : h.Settles h') (kept : h.Kept) : h'.Kept :=
  fun s member _ => (settles.recorded s.code).mpr (settles.recorded_of_kept kept member)

theorem Settles.diagnostics (settles : h.Settles h') (sound : h'.Sound) :
    h'.diagnostics.1 = (h'.statements.statements.filter fun s => h.Recorded s.code).flatMap
      fun s => analyze s.tokens (validate s.tokens) 0 := by
  rw [sound.diagnostics]
  refine flatMap_eq_filter fun s _ => ?_
  simp only [settles.recorded, decide_eq_true_eq]

theorem Settles.complete_iff (settles : h.Settles h') (sound : h'.Sound) :
    h'.Complete ↔
      ∀ s ∈ h'.statements.statements, analyze s.tokens (validate s.tokens) 0 ≠ [] → h.Recorded s.code := by
  rw [Complete, settles.diagnostics sound, flatMap_filter_eq_iff]
  simp only [decide_eq_true_eq]

theorem validateAt_retains (quiet : QuietAt observe a) (faithful : h.tokenCache.Faithful QueryService.tokenize)
    (unlimited : h.resultCache.policy = ⟨0, 0⟩) (p : Position) :
    (validateAt observe (a, h) p).1 = a ∧
      (validateAt observe (a, h) p).2.tokenCache.Faithful QueryService.tokenize ∧
      h.Retains (validateAt observe (a, h) p).2 := by
  unfold validateAt
  dsimp only
  cases h.statements.atPosition? p with
  | none => exact ⟨rfl, faithful, .refl unlimited⟩
  | some e =>
    dsimp only
    split
    · rw [announce_quiet quiet]
      exact ⟨rfl, (validateEntry_spec faithful e).faithful, retains_validateEntry faithful unlimited e⟩
    · exact ⟨rfl, faithful, .refl unlimited⟩

theorem fire_retains (quiet : QuietAt observe a) (faithful : h.tokenCache.Faithful QueryService.tokenize)
    (unlimited : h.resultCache.policy = ⟨0, 0⟩) (n id : Nat) :
    (fire observe (n, a, h) id).2.1 = a ∧
      (fire observe (n, a, h) id).2.2.tokenCache.Faithful QueryService.tokenize ∧
      h.Retains (fire observe (n, a, h) id).2.2 := by
  unfold fire
  dsimp only
  cases h.scheduler.take id with
  | none => exact ⟨rfl, faithful, .refl unlimited⟩
  | some pair =>
    obtain ⟨p, scheduler⟩ := pair
    obtain ⟨state, faithful', retains⟩ := validateAt_retains (h := { h with scheduler }) quiet faithful unlimited p
    exact ⟨state, faithful', retains.unlimited, retains.kept⟩

theorem runDue_retains (quiet : QuietAt observe a) (faithful : h.tokenCache.Faithful QueryService.tokenize)
    (unlimited : h.resultCache.policy = ⟨0, 0⟩) :
    (runDue observe (a, h)).2.1 = a ∧ h.Retains (runDue observe (a, h)).2.2 := by
  have fired := List.foldlRecOn (motive := fun t : Nat × σ × Highlighter =>
    t.2.1 = a ∧ t.2.2.tokenCache.Faithful QueryService.tokenize ∧ h.Retains t.2.2)
    h.scheduler.due (fire observe) (b := (0, a, h)) ⟨rfl, faithful, .refl unlimited⟩ ?_
  · exact ⟨fired.1, fired.2.2⟩
  · rintro ⟨n, _, h'⟩ ⟨rfl, faithful, retains⟩ id _
    have fired := fire_retains quiet faithful retains.unlimited n id
    exact ⟨fired.1, fired.2.1, retains.trans fired.2.2⟩

end Highlighter

/-! ### Sessions -/

namespace Session

open Highlighter

/-- The command installs no callback and sets no limits. -/
def Command.plain : Command → Bool
  | .install _ => false
  | .setPolicy policy => policy == ⟨0, 0⟩
  | _ => true

/-- The command reads all statements anew or makes them dirty. -/
def Command.renews : Command → Bool
  | .update _ | .markDirty => true
  | _ => false

theorem observer_quiet {c : Client} (silent : c.callback = none) (depth : Nat) :
    QuietAt (observer depth) c := by
  intro v h
  cases depth <;> simp only [observer, silent, Option.isSome_none, Bool.false_eq_true, if_false]

variable {s : Client × Highlighter} {command : Command}

theorem perform_silent (silent : s.1.callback = none) (sound : s.2.Sound) (unlimited : s.2.resultCache.policy = ⟨0, 0⟩)
    (plain : command.plain = true) (depth : Nat) : (perform (observer depth) s command).1.1.callback = none := by
  have quiet := observer_quiet silent depth
  cases command with
  | install body => cases plain
  | uninstall => rfl
  | validateAll => rw [perform, (validateAll_quiet quiet sound unlimited).1, silent]
  | run => rw [perform, (runDue_retains quiet sound.tokens unlimited).1, silent]
  | document command =>
    unfold perform
    dsimp only
    split <;> exact silent
  | diagnosticsOf index =>
    unfold perform
    dsimp only
    split <;> exact silent
  | setColor name color =>
    unfold perform
    dsimp only
    split <;> exact silent
  | _ => exact silent

theorem perform_retains (silent : s.1.callback = none) (sound : s.2.Sound)
    (unlimited : s.2.resultCache.policy = ⟨0, 0⟩) (plain : command.plain = true) (kept : command ≠ .clearCache)
    (depth : Nat) : s.2.Retains (perform (observer depth) s command).1.2 := by
  have quiet := observer_quiet silent depth
  cases command with
  | tokenize text => exact (spares_tokenize s.2 text).looks.retains unlimited
  | update text => exact retains_update sound unlimited text
  | edit place => exact retains_notifyEdit unlimited place
  | document command =>
    unfold perform
    dsimp only
    split
    · exact .refl unlimited
    · exact (retains_update sound unlimited _).trans
        (retains_notifyEdit (retains_update sound unlimited _).unlimited _)
  | markDirty => exact retains_markDirty sound.statements.numbered unlimited
  | clearCache => exact absurd rfl kept
  | validateAll =>
    obtain ⟨_, unlimited', settles⟩ := validateAll_quiet quiet sound unlimited
    exact ⟨unlimited', settles.kept⟩
  | result code => exact (looks_result s.2 code).retains unlimited
  | diagnostics => exact (looks_diagnostics s.2).retains unlimited
  | diagnosticsOf index =>
    unfold perform
    dsimp only
    split
    · exact .refl unlimited
    · exact (looks_diagnosticsOf s.2 _).retains unlimited
  | spans line => exact (looks_lineSpans s.2 line).retains unlimited
  | setColor name color =>
    unfold perform
    dsimp only
    split
    · exact .refl unlimited
    · exact ⟨unlimited, id⟩
  | setPolicy policy =>
    obtain rfl := eq_of_beq plain
    exact (looks_setCachePolicy unlimited).retains unlimited
  | run => exact (runDue_retains quiet sound.tokens unlimited).2
  | install body => cases plain
  | _ => exact ⟨unlimited, id⟩

theorem perform_unlimited (silent : s.1.callback = none) (sound : s.2.Sound)
    (unlimited : s.2.resultCache.policy = ⟨0, 0⟩) (plain : command.plain = true) (depth : Nat) :
    (perform (observer depth) s command).1.2.resultCache.policy = ⟨0, 0⟩ := by
  by_cases clears : command = .clearCache
  · rw [clears]
    exact unlimited
  · exact (perform_retains silent sound unlimited plain clears depth).unlimited

theorem perform_renews (sound : s.2.Sound) (renews : command.renews = true) (observe : Observer Client) :
    (perform observe s command).1.2.Kept := by
  cases command with
  | update text => exact kept_update sound text
  | markDirty => exact kept_markDirty sound.statements.numbered
  | _ => cases renews

/-- What holds of a session without callback and limits after some commands. -/
structure Free (commands : List Command) (s : Client × Highlighter) : Prop where
  silent : s.1.callback = none
  sound : s.2.Sound
  unlimited : s.2.resultCache.policy = ⟨0, 0⟩
  kept : (∀ earlier later, commands = earlier ++ .clearCache :: later → ∃ command ∈ later, command.renews) →
    s.2.Kept

theorem Free.perform {commands : List Command} (free : Free commands s) (plain : command.plain = true)
    (depth : Nat) : Free (commands ++ [command]) (perform (observer depth) s command).1 := by
  obtain ⟨silent, sound, unlimited, kept⟩ := free
  obtain ⟨texts, reached⟩ := perform_reaches (observer_lawful depth) s command
  refine ⟨perform_silent silent sound unlimited plain depth, (reached.evolves sound).sound,
    perform_unlimited silent sound unlimited plain depth, fun renewed => ?_⟩
  by_cases renews : command.renews = true
  · exact perform_renews sound renews (observer depth)
  -- What clears is not the last command, so whatever renews after it was there before.
  · have remains : command ≠ .clearCache := by
      rintro rfl
      obtain ⟨_, member, _⟩ := renewed commands [] rfl
      cases member
    refine (perform_retains silent sound unlimited plain remains depth).kept (kept ?_)
    rintro earlier later rfl
    obtain ⟨other, member, renewing⟩ := renewed earlier (later ++ [command]) (by simp)
    rcases List.mem_append.mp member with listed | last
    · exact ⟨other, listed, renewing⟩
    · rw [List.mem_singleton.mp last] at renewing
      exact absurd renewing renews

/-- The notes of earlier commands do not matter. -/
theorem Free.noted {commands : List Command} (free : Free commands s) (validated : List (Bytes × Nat)) (log : Log) :
    Free commands ({ s.1 with validated }, { s.2 with log }) :=
  ⟨free.silent, ⟨free.sound.tokens, free.sound.reports, free.sound.statements⟩, free.unlimited, free.kept⟩

theorem settles_step (silent : s.1.callback = none) (sound : s.2.Sound) (unlimited : s.2.resultCache.policy = ⟨0, 0⟩) :
    s.2.Settles (step s .validateAll).1.2 := by
  have noted : { s.2 with log := { s.2.log with written := [] } }.Sound :=
    ⟨sound.tokens, sound.reports, sound.statements⟩
  have quiet : QuietAt (observer 1) { s.1 with validated := [] } :=
    observer_quiet (c := { s.1 with validated := [] }) silent 1
  have settles := (validateAll_quiet quiet noted unlimited).2.2
  exact ⟨settles.statements, settles.recorded⟩

theorem free_visit {options : HighlighterOptions} (level : LogLevel) (unlimited : options.cache = ⟨0, 0⟩)
    (commands : List Command) (plain : ∀ command ∈ commands, command.plain = true) :
    Free commands (visit ({}, new options level) commands) := by
  induction commands using List.reverseRecOn with
  | nil => exact ⟨rfl, sound_new options level, unlimited, fun _ _ member => nomatch member⟩
  | append_singleton commands command ih =>
    have free := ih fun other member => plain other (List.mem_append_left _ member)
    rw [visit_concat]
    exact (free.noted [] _).perform (plain command (List.mem_append_right _ (List.mem_singleton_self _))) 1

/-- With no callback and no limits, validating everything makes every statement clean, and the diagnostics
afterwards are those of the statements that were dirty or had a report, by themselves or by another one
with the same code. They are complete exactly if no other statement has faults, and so they are if all was
renewed since the caches were last cleared. -/
theorem validateAll_diagnostics (options : HighlighterOptions) (level : LogLevel) (commands : List Command)
    (silent : (visit ({}, new options level) commands).1.callback = none)
    (unlimited : (visit ({}, new options level) commands).2.resultCache.policy = ⟨0, 0⟩) :
    let h := (visit ({}, new options level) commands).2
    let h' := (step (visit ({}, new options level) commands) .validateAll).1.2
    h'.statements.statements = h.statements.statements.map checked ∧
      h'.diagnostics.1 = (h'.statements.statements.filter fun s => h.Recorded s.code).flatMap
        (fun s => analyze s.tokens (validate s.tokens) 0) ∧
      (h'.Complete ↔
        ∀ s ∈ h'.statements.statements, analyze s.tokens (validate s.tokens) 0 ≠ [] → h.Recorded s.code) ∧
      (options.cache = ⟨0, 0⟩ → (∀ command ∈ commands, command.plain = true) →
        (∀ earlier later, commands = earlier ++ .clearCache :: later → ∃ command ∈ later, command.renews) →
          h'.Complete) := by
  intro h h'
  obtain ⟨texts, reached⟩ := visit_reaches ({}, new options level) commands
  have settles : h.Settles h' := settles_step silent reached.sound.1 unlimited
  obtain ⟨later, validated⟩ := step_reaches (visit ({}, new options level) commands) .validateAll
  have sound : h'.Sound := (validated.evolves reached.sound.1).sound
  refine ⟨settles.statements, settles.diagnostics sound, settles.complete_iff sound, ?_⟩
  intro unlimited plain renewed
  have kept := (free_visit level unlimited commands plain).kept renewed
  exact (settles.complete_iff sound).mpr fun s member _ => settles.recorded_of_kept kept member

/-- A statement with faults is validated, and then its report is forgotten. -/
def forgetting : List Command := [.update (ascii "bogus;"), .validateAll, .clearCache]

theorem forgotten_report_missed :
    let options : HighlighterOptions := { cache := ⟨0, 0⟩ }
    let s := visit ({}, new options .off) forgetting
    let h' := (step s .validateAll).1.2
    s.1.callback = none ∧ s.2.resultCache.policy = ⟨0, 0⟩ ∧
      (∃ t ∈ h'.statements.statements, analyze t.tokens (validate t.tokens) 0 ≠ [] ∧ ¬ s.2.Recorded t.code) ∧
      ¬ h'.Complete ∧ h'.diagnostics.1 = [] := by
  intro options s h'
  have silent : s.1.callback = none := by decide +kernel
  have unlimited : s.2.resultCache.policy = ⟨0, 0⟩ := by decide +kernel
  obtain ⟨_, found, complete, _⟩ := validateAll_diagnostics options .off forgetting silent unlimited
  have missed : ∃ t ∈ h'.statements.statements,
      analyze t.tokens (validate t.tokens) 0 ≠ [] ∧ ¬ s.2.Recorded t.code := by decide +kernel
  have none : (h'.statements.statements.filter fun t => s.2.Recorded t.code) = [] := by decide +kernel
  refine ⟨silent, unlimited, missed, fun all => ?_, ?_⟩
  · obtain ⟨t, member, faulty, unrecorded⟩ := missed
    exact unrecorded (complete.mp all t member faulty)
  · rw [found, none]
    rfl

end Session
end QueryService
