import QueryService.Proofs.Highlighter.FixedText
import QueryService.Proofs.Highlighter.Records

/-!
# Validating everything

A pass over the dirty statements works on the list as it was at its start, while each validation puts another
list in its place and the caches take in and give up entries. Without an observer it finishes all the same: it
validates each dirty statement once, leaves the others as they are and lets no timer wait (`validateAll_settles`).
That no timer waits takes what holds of every timer that a highlighter sets: it waits for a key, and is the one that
is remembered for it.
-/

namespace QueryService

namespace Scheduler

variable {κ α : Type} [DecidableEq κ] {s s' : Scheduler κ α}

/-- The scheduler `s'` comes from `s` by what a highlighter does to its own. -/
inductive Handles : Scheduler κ α → Scheduler κ α → Prop where
  | refl (s : Scheduler κ α) : Handles s s
  | trans {s s' s'' : Scheduler κ α} (first : Handles s s') (second : Handles s' s'') : Handles s s''
  | trigger (s : Scheduler κ α) (key : κ) (action : α) : Handles s (s.trigger key action)
  | take {s s' : Scheduler κ α} {id : Nat} {action : α} (taken : s.take id = some (action, s')) : Handles s s'
  | cancelKeys (s : Scheduler κ α) : Handles s s.cancelKeys
  | setNow (s : Scheduler κ α) (now : Int) : Handles s { s with now }
  | setDelay (s : Scheduler κ α) (delay : Int) : Handles s { s with delay }

/-- Every timer waits for a key, and is the one that is remembered for it. -/
structure Debounced (s : Scheduler κ α) : Prop where
  exclusive : s.Exclusive
  used : ∀ t ∈ s.queue.timers, t.id < s.queue.nextId
  keyed : ∀ t ∈ s.queue.timers, t.action.key ≠ none

theorem debounced_new (now delay : Int) : ({ now, delay } : Scheduler κ α).Debounced where
  exclusive := exclusive_new now delay
  used _ member := by cases member
  keyed _ member := by cases member

namespace Debounced

theorem trigger (debounced : s.Debounced) (key : κ) (action : α) : (s.trigger key action).Debounced := by
  refine ⟨debounced.exclusive.trigger debounced.used key action, used_trigger debounced.used key action, ?_⟩
  intro t member
  rw [trigger_timers, List.mem_append, List.mem_singleton] at member
  rcases member with old | rfl
  · exact debounced.keyed t ((cancelKey_loses s key).timers.subset old)
  · exact Option.some_ne_none key

theorem take (debounced : s.Debounced) {id : Nat} {action : α} (taken : s.take id = some (action, s')) :
    s'.Debounced := by
  have loses := (take_some taken).2.2
  exact ⟨debounced.exclusive.take taken, loses.used debounced.used,
    fun t member => debounced.keyed t (loses.timers.subset member)⟩

theorem cancelKeys_timers (debounced : s.Debounced) : s.cancelKeys.queue.timers = [] := by
  refine List.eq_nil_iff_forall_not_mem.mpr fun t member => ?_
  have old : t ∈ s.queue.timers := by
    rw [cancelKeys, TimerQueue.removeAll_eq] at member
    exact List.mem_of_mem_filter member
  exact debounced.keyed t old (debounced.exclusive.mem_cancelKeys member)

theorem cancelKeys (debounced : s.Debounced) : s.cancelKeys.Debounced where
  exclusive := debounced.exclusive.cancelKeys
  used t member := by
    rw [debounced.cancelKeys_timers] at member
    cases member
  keyed t member := by
    rw [debounced.cancelKeys_timers] at member
    cases member

end Debounced

theorem Handles.debounced (handles : s.Handles s') (debounced : s.Debounced) : s'.Debounced := by
  induction handles with
  | refl => exact debounced
  | trans _ _ first second => exact second (first debounced)
  | trigger s key action => exact debounced.trigger key action
  | take taken => exact debounced.take taken
  | cancelKeys => exact debounced.cancelKeys
  | setNow s now => exact ⟨debounced.exclusive.setNow now, debounced.used, debounced.keyed⟩
  | setDelay s delay =>
    exact ⟨⟨debounced.exclusive.held, debounced.exclusive.used⟩, debounced.used, debounced.keyed⟩

end Scheduler

namespace Highlighter

open Scheduler (Handles)

variable {σ : Type} {observe : Observer σ} {h : Highlighter}

/-! ### What operations do to the timers -/

theorem scheduler_update (h : Highlighter) (text : Bytes) : (h.update text).scheduler = h.scheduler := by
  rw [(spares_update h text).scheduler]
  exact List.foldlRecOn (motive := fun h' : Highlighter => h'.scheduler = h.scheduler) _ enroll
    (spares_tokenize h text).scheduler fun _ same _ _ => same

theorem scheduler_markDirty (h : Highlighter) : h.markDirty.scheduler = h.scheduler :=
  List.foldlRecOn (motive := fun h' : Highlighter => h'.scheduler = h.scheduler) h.statements.entries _ rfl
    fun _ same _ _ => same

theorem scheduler_setCachePolicy (h : Highlighter) (policy : CachePolicy) :
    (h.setCachePolicy policy).scheduler = h.scheduler := by
  unfold setCachePolicy
  dsimp only
  rw [(spares_noteEvictions _ _ _ _).scheduler, (spares_noteEvictions _ _ _ _).scheduler]

theorem scheduler_validateEntry (h : Highlighter) (e : Entry) : (h.validateEntry e).2.scheduler = h.scheduler := by
  show (noteEvictions _ _ _ _).scheduler = _
  rw [(spares_noteEvictions _ _ _ _).scheduler]
  exact (spares_notes _ _ _).scheduler.trans (spares_tokenize h e.statement.code).scheduler

theorem scheduler_diagnosticsOf (h : Highlighter) (s : Statement) :
    (h.diagnosticsOf s).2.scheduler = h.scheduler := by
  have looked : (h.result s.code).2.scheduler = h.scheduler := rfl
  unfold diagnosticsOf
  split
  · rename_i found
    rwa [found] at looked
  · rename_i found
    rw [found] at looked
    exact (spares_tokenize _ _).scheduler.trans looked

theorem scheduler_diagnostics (h : Highlighter) : h.diagnostics.2.scheduler = h.scheduler :=
  List.foldlRecOn (motive := fun t : List Diagnostic × Highlighter => t.2.scheduler = h.scheduler) _ _ rfl
    fun t same e _ => (scheduler_diagnosticsOf t.2 e.statement).trans same

theorem scheduler_lineSpans (h : Highlighter) (line : Nat) : (h.lineSpans line).2.scheduler = h.scheduler := by
  unfold lineSpans
  split
  · rfl
  · refine List.foldlRecOn (motive := fun t : List Statement × Highlighter => t.2.scheduler = h.scheduler) _ _ rfl ?_
    intro t same e _
    refine Eq.trans ?_ same
    dsimp only
    unfold failsOn
    split <;> rfl

theorem handles_notifyEdit (h : Highlighter) (p : Position) : Handles h.scheduler (h.notifyEdit p).scheduler := by
  unfold notifyEdit
  split
  · exact .refl _
  · exact .trigger _ _ _

/-- An observer that does to the timers what operations do. -/
def Mindful (observe : Observer σ) : Prop := ∀ v s, Handles s.2.scheduler (observe v s).2.scheduler

theorem handles_announce (mindful : Mindful observe) (s : σ × Highlighter) (e : Entry) :
    Handles s.2.scheduler (announce observe s e).2.scheduler := by
  have told := mindful (s.2.validateEntry e).1 (s.1, (s.2.validateEntry e).2)
  rw [scheduler_validateEntry] at told
  exact told

theorem handles_validateAll (mindful : Mindful observe) (s : σ × Highlighter) :
    Handles s.2.scheduler (validateAll observe s).2.scheduler :=
  List.foldlRecOn (motive := fun t : σ × Highlighter => Handles s.2.scheduler t.2.scheduler) _ _
    (.cancelKeys s.2.scheduler) fun t handles e _ => handles.trans (handles_announce mindful t e)

theorem handles_validateAt (mindful : Mindful observe) (s : σ × Highlighter) (p : Position) :
    Handles s.2.scheduler (validateAt observe s p).2.scheduler := by
  unfold validateAt
  split
  · exact .refl _
  · split
    · exact handles_announce mindful s _
    · exact .refl _

theorem handles_fire (mindful : Mindful observe) (s : Nat × σ × Highlighter) (id : Nat) :
    Handles s.2.2.scheduler (fire observe s id).2.2.scheduler := by
  unfold fire
  dsimp only
  cases taken : s.2.2.scheduler.take id with
  | none => exact .refl _
  | some pair =>
    obtain ⟨p, scheduler⟩ := pair
    exact (Handles.take taken).trans (handles_validateAt mindful (s.2.1, { s.2.2 with scheduler }) p)

theorem handles_runDue (mindful : Mindful observe) (s : σ × Highlighter) :
    Handles s.2.scheduler (runDue observe s).2.2.scheduler :=
  List.foldlRecOn (motive := fun t : Nat × σ × Highlighter => Handles s.2.scheduler t.2.2.scheduler) _ _
    (.refl s.2.scheduler) fun t handles id _ => handles.trans (handles_fire mindful t id)

end Highlighter

/-! ### Sessions -/

namespace Session

open Highlighter
open Scheduler (Handles)

theorem perform_handles {observe : Observer Client} (mindful : Mindful observe) (s : Client × Highlighter)
    (command : Command) : Handles s.2.scheduler (perform observe s command).1.2.scheduler := by
  cases command with
  | tokenize text => exact (spares_tokenize s.2 text).scheduler ▸ .refl _
  | update text => exact scheduler_update s.2 text ▸ .refl _
  | edit place => exact handles_notifyEdit s.2 place
  | document command =>
    unfold perform
    dsimp only
    split
    · exact .refl _
    · rename_i document _ _ _
      have edited := handles_notifyEdit (s.2.update document.text) document.cursor
      rwa [scheduler_update] at edited
  | markDirty => exact scheduler_markDirty s.2 ▸ .refl _
  | validateAll => exact handles_validateAll mindful s
  | diagnostics => exact scheduler_diagnostics s.2 ▸ .refl _
  | diagnosticsOf index =>
    unfold perform
    dsimp only
    split
    · exact .refl _
    · exact scheduler_diagnosticsOf s.2 _ ▸ .refl _
  | spans line => exact scheduler_lineSpans s.2 line ▸ .refl _
  | setColor name color =>
    unfold perform
    dsimp only
    split <;> exact .refl _
  | setPolicy policy => exact scheduler_setCachePolicy s.2 policy ▸ .refl _
  | setDebounce delay => exact .setDelay _ delay
  | setClock time => exact .setNow _ time
  | run => exact handles_runDue mindful s
  | _ => exact .refl _

theorem performs_handle {perform : Client × Highlighter → Command → Client × Highlighter}
    (handles : ∀ s command, Handles s.2.scheduler (perform s command).2.scheduler) (s : Client × Highlighter)
    (commands : List Command) : Handles s.2.scheduler (commands.foldl perform s).2.scheduler :=
  List.foldlRecOn (motive := fun t : Client × Highlighter => Handles s.2.scheduler t.2.scheduler) commands perform
    (.refl _) fun t handled command _ => handled.trans (handles t command)

theorem observer_mindful (depth : Nat) : Mindful (observer depth) := by
  induction depth with
  | zero =>
    intro v s
    unfold observer
    split <;> exact .refl _
  | succ depth ih =>
    intro v s
    unfold observer
    split
    · exact .refl _
    · rename_i body _
      exact performs_handle (perform_handles ih) (record v s.1, s.2) body

theorem visit_handles (s : Client × Highlighter) (commands : List Command) :
    Handles s.2.scheduler (visit s commands).2.scheduler :=
  performs_handle (fun s command => perform_handles (observer_mindful 1)
    ({ s.1 with validated := [] }, { s.2 with log := { s.2.log with written := [] } }) command) s commands

end Session

/-! ### A pass without an observer -/

namespace Highlighter

open Scheduler (Handles)

variable {σ : Type} {observe : Observer σ} {a : σ} {h : Highlighter}

/-- What a pass over some entries leaves behind, whatever the caches hold. -/
structure Passes (a : σ) (h : Highlighter) (entries : List Entry) (s : σ × Highlighter) : Prop where
  state : s.1 = a
  scheduler : s.2.scheduler = h.scheduler
  passes : s.2.passes = h.passes + entries.length
  others : ∀ (i : Nat) (x : Entry), h.statements.entries[i]? = some x →
    (∀ e ∈ entries, x.identity ≠ e.identity) → s.2.statements.entries[i]? = some x

theorem passes_announce (quiet : QuietAt observe a) (faithful : h.tokenCache.Faithful QueryService.tokenize)
    (entries : List Entry) : Passes a h entries (entries.foldl (announce observe) (a, h)) := by
  -- The entries are those of the first list, whatever list the highlighter has by the time one is validated.
  induction entries generalizing h with
  | nil => exact ⟨rfl, rfl, rfl, fun i x there _ => there⟩
  | cons e entries ih =>
    have validates := validateEntry_spec faithful e
    have later := ih validates.faithful
    rw [List.foldl_cons, announce_quiet quiet]
    refine ⟨later.state, later.scheduler.trans validates.scheduler, ?_, fun i x there other => ?_⟩
    · rw [later.passes, passes_validateEntry, List.length_cons, Nat.add_assoc, Nat.add_comm 1]
    · obtain ⟨differs, others⟩ := List.forall_mem_cons.mp other
      refine later.others i x ?_ others
      rw [validates.statements]
      exact Listing.replace_of_other there differs _

/-- A clean entry has another number than any dirty one. -/
theorem Sound.apart (sound : h.Sound) {x : Entry} (listed : x ∈ h.statements.entries)
    (clean : x.statement.dirty = false) :
    ∀ e ∈ h.statements.entries.filter (·.statement.dirty), x.identity ≠ e.identity := by
  intro e member number
  obtain ⟨listed', dirty⟩ := List.mem_filter.mp member
  obtain rfl := List.inj_on_of_nodup_map sound.statements.numbered.distinct listed listed' number
  rw [clean] at dirty
  cases dirty

theorem validateAll_passes (quiet : QuietAt observe a) (sound : h.Sound) :
    Passes a { h with scheduler := h.scheduler.cancelKeys } (h.statements.entries.filter (·.statement.dirty))
      (validateAll observe (a, h)) :=
  passes_announce (h := { h with scheduler := h.scheduler.cancelKeys }) quiet sound.tokens _

/-- Where every statement is clean, there is nothing to validate. -/
theorem validateAll_of_clean (clean : ∀ s ∈ h.statements.statements, s.dirty = false) :
    validateAll observe (a, h) = (a, { h with scheduler := h.scheduler.cancelKeys }) := by
  have none : h.statements.entries.filter (·.statement.dirty) = [] := by
    refine List.filter_eq_nil_iff.mpr fun e listed => ?_
    rw [clean e.statement (List.mem_map_of_mem listed)]
    exact Bool.false_ne_true
  show List.foldl (announce observe) _ (h.statements.entries.filter (·.statement.dirty)) = _
  rw [none]
  rfl

/-- In every highlighter that a fresh one reaches, a pass over all statements that nobody hears of makes each of them
clean, with the verdict on its code. It validates those that were dirty, once each, and leaves the others as they
are. No timer waits after it, and another pass finds nothing to do. -/
theorem validateAll_settles {options : HighlighterOptions} {level : LogLevel} {texts : List Bytes}
    (reached : Reaches (new options level) texts h) (handled : Handles (new options level).scheduler h.scheduler)
    (quiet : QuietAt observe a) :
    let after := validateAll observe (a, h)
    let again := validateAll observe after
    (∀ s ∈ after.2.statements.statements,
      s.dirty = false ∧ s.valid = (validate (QueryService.tokenize s.code)).valid) ∧
    after.2.statements.statements.map Statement.unvalidated = h.statements.statements.map Statement.unvalidated ∧
    after.2.scheduler.queue.pending = 0 ∧
    after.2.passes = h.passes + h.statements.statements.countP (·.dirty) ∧
    (∀ (i : Nat) (e : Entry), h.statements.entries[i]? = some e → e.statement.dirty = false →
      after.2.statements.entries[i]? = some e) ∧
    again.2.statements = after.2.statements ∧ again.2.passes = after.2.passes := by
  intro after again
  have sound := reached.sound.1
  have passes : Passes a _ _ after := validateAll_passes quiet sound
  have statements : after.2.statements.statements = h.statements.statements.map checked :=
    validateAll_checks quiet sound
  have settled : ∀ s ∈ after.2.statements.statements,
      s.dirty = false ∧ s.valid = (validate (QueryService.tokenize s.code)).valid := by
    intro s member
    rw [statements] at member
    obtain ⟨old, _, rfl⟩ := List.mem_map.mp member
    exact ⟨rfl, rfl⟩
  have repeated : again = (after.1, { after.2 with scheduler := after.2.scheduler.cancelKeys }) :=
    validateAll_of_clean fun s member => (settled s member).1
  refine ⟨settled, ?_, ?_, ?_, ?_, congrArg (·.2.statements) repeated, congrArg (·.2.passes) repeated⟩
  · rw [statements, List.map_map]
    rfl
  · have debounced := handled.debounced (Scheduler.debounced_new 0 options.debounce)
    rw [passes.scheduler, TimerQueue.pending, debounced.cancelKeys_timers]
    rfl
  · rw [passes.passes, Listing.statements, List.countP_map, List.countP_eq_length_filter]
    rfl
  · intro i e there clean
    exact passes.others i e there (sound.apart (List.mem_of_getElem? there) clean)

/-- The callback edits the second statement during every validation, so a timer waits when the pass is over, and the
statement is dirty. The pass without the callback catches up. -/
def interrupted : List Session.Command :=
  [.install [.edit ⟨0, 3⟩], .update (ascii "a;a;b;"), .validateAll, .uninstall]

theorem interrupted_pass_settles :
    let s := Session.visit ({}, new { cache := ⟨1, 0⟩ } .off) interrupted
    let after := validateAll (Session.observer 1) s
    s.2.statements.statements.map (·.dirty) = [false, true, false] ∧ s.2.scheduler.queue.pending = 1 ∧
      (∃ texts, Reaches (new { cache := ⟨1, 0⟩ } .off) texts s.2) ∧
      Handles (new { cache := ⟨1, 0⟩ } .off).scheduler s.2.scheduler ∧ QuietAt (Session.observer 1) s.1 ∧
      after.2.scheduler.queue.pending = 0 ∧ after.2.passes = s.2.passes + 1 ∧
      after.2.statements.entries[2]? = s.2.statements.entries[2]? ∧
      (validateAll (Session.observer 1) after).2.passes = after.2.passes := by
  intro s after
  have dirty : s.2.statements.statements.map (·.dirty) = [false, true, false] := by decide +kernel
  have waiting : s.2.scheduler.queue.pending = 1 := by decide +kernel
  have silent : s.1.callback = none := by decide +kernel
  have quiet := Session.observer_quiet silent 1
  have handled := Session.visit_handles ({}, new { cache := ⟨1, 0⟩ } .off) interrupted
  obtain ⟨texts, reached⟩ := Session.visit_reaches ({}, new { cache := ⟨1, 0⟩ } .off) interrupted
  obtain ⟨_, _, pending, passes, others, _, again⟩ := validateAll_settles reached handled quiet
  have one : s.2.statements.statements.countP (·.dirty) = 1 := by decide +kernel
  have third : s.2.statements.entries[2]?.map (·.statement.dirty) = some false := by decide +kernel
  obtain ⟨e, there, clean⟩ := Option.map_eq_some_iff.mp third
  exact ⟨dirty, waiting, ⟨texts, reached⟩, handled, quiet, pending, one ▸ passes,
    (others 2 e there clean).trans there.symm, again⟩

end Highlighter
end QueryService
