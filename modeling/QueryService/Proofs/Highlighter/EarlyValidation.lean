import QueryService.Proofs.Highlighter.QuietPeriod
import QueryService.Proofs.Timer.Keys

/-!
# Before the quiet period is over

A run validates the dirty statements at which the timers that are due by then point (`play_validates`).
The timer of an edit is not due before the delay has passed, and the edit cancels the one that waited for
the same offset. An older timer that waits for another offset stays, and when an edit further up has moved
the statement to where that timer points, the statement is validated before its time
(`early_validation_iff`).
-/

namespace QueryService
namespace Highlighter

open Statement (Points Stays)

variable {σ : Type} {observe : Observer σ} {a h : Highlighter} {s : σ × Highlighter}

/-! ### The statements that a run validates -/

/-- The statement that a timer validates when it fires. -/
def target? (h : Highlighter) (id : Nat) : Option Statement :=
  (h.scheduler.take id).bind fun (p, _) => ((h.statements.atPosition? p).map (·.statement)).filter (·.dirty)

def targets (observe : Observer σ) (s : Nat × σ × Highlighter) : List Nat → List Statement
  | [] => []
  | id :: ids => (target? s.2.2 id).toList ++ targets observe (fire observe s id) ids

def validated (observe : Observer σ) (s : σ × Highlighter) : Event → List Statement
  | .run => targets observe (0, s) s.2.scheduler.due
  | _ => []

/-- The statements validated in the course of some events, in order. -/
def validations (observe : Observer σ) (s : σ × Highlighter) : List Event → List Statement
  | [] => []
  | e :: events => validated observe s e ++ validations observe (act observe s e) events

/-- An observer that takes note of the codes that it is told. -/
def noting (note : σ → Bytes → σ) : Observer σ := fun v s => (note s.1 v.code, s.2)

theorem fire_noted (note : σ → Bytes → σ) (s : Nat × σ × Highlighter) (id : Nat) :
    (fire (noting note) s id).2.1 = ((target? s.2.2 id).toList.map (·.code)).foldl note s.2.1 := by
  unfold fire target?
  dsimp only
  cases s.2.2.scheduler.take id with
  | none => rfl
  | some pair =>
    obtain ⟨p, scheduler⟩ := pair
    show (validateAt _ _ _).1 = _
    unfold validateAt
    dsimp only [Option.bind_some]
    cases s.2.2.statements.atPosition? p with
    | none => rfl
    | some e =>
      by_cases dirty : e.statement.dirty = true
      · simp only [dirty, if_pos, Option.map_some, Option.filter_some]
        rfl
      · simp only [dirty, Option.map_some, Option.filter_some]
        rfl

theorem fires_noted (note : σ → Bytes → σ) (ids : List Nat) (s : Nat × σ × Highlighter) :
    (ids.foldl (fire (noting note)) s).2.1 = ((targets (noting note) s ids).map (·.code)).foldl note s.2.1 := by
  induction ids generalizing s with
  | nil => rfl
  | cons id ids ih =>
    rw [List.foldl_cons, ih, fire_noted, targets, List.map_append, List.foldl_append]

/-- Such an observer hears of the validations, one by one, and of nothing else. -/
theorem play_noted (note : σ → Bytes → σ) (events : List Event) (s : σ × Highlighter) :
    (play (noting note) s events).1 = ((validations (noting note) s events).map (·.code)).foldl note s.1 := by
  induction events generalizing s with
  | nil => rfl
  | cons e events ih =>
    have first : (act (noting note) s e).1 = ((validated (noting note) s e).map (·.code)).foldl note s.1 := by
      cases e with
      | edit text place => rfl
      | wait elapsed => rfl
      | run => exact fires_noted note s.2.scheduler.due (0, s)
    rw [validations, List.map_append, List.foldl_append, ← first]
    exact ih _

/-! ### Which timers have validated a statement -/

variable {t : Timer (Job Nat Position)} {fired : List (Timer (Job Nat Position))} {found : List Statement}

/-- A timer validates the dirty statement that it points at, and no other. -/
theorem target?_iff (coherent : h.Coherent) (member : t ∈ h.scheduler.queue.timers) {x : Statement}
    (listed : x ∈ h.statements.statements) (dirty : x.dirty = true) :
    (∃ v ∈ target? h t.id, v.start = x.start) ↔ Points h.statements.statements t.action.action x.start := by
  have target : target? h t.id = (Statement.at? h.statements.statements t.action.action).filter (·.dirty) := by
    obtain ⟨scheduler, taken⟩ := coherent.timely.take_of_mem member
    rw [target?, taken, ← Listing.atPosition?_statement]
    rfl
  rw [target]
  constructor
  · rintro ⟨v, found, start⟩
    obtain ⟨there, _⟩ := Option.mem_filter_iff.mp found
    rw [Points, there, Option.map_some, start]
  · intro points
    obtain ⟨v, there, start⟩ := Option.map_eq_some_iff.mp points
    have same : v = x :=
      List.inj_on_of_nodup_map coherent.distinct (Statement.mem_of_at? there) listed start
    exact ⟨v, Option.mem_filter_iff.mpr ⟨there, by rw [same]; exact dirty⟩, start⟩

/-- Since `a`, the timers `fired` have fired, each in its time, and the statements `found` were validated. -/
structure Heard (a : Highlighter) (fired : List (Timer (Job Nat Position))) (found : List Statement)
    (h : Highlighter) : Prop where
  since : Since a (fired.map (·.action.action)) h
  due : ∀ t ∈ fired, t ∈ a.scheduler.queue.timers ∧ t.deadline ≤ h.scheduler.now
  validated : ∀ x ∈ a.statements.statements, x.dirty = true →
    ((∃ v ∈ found, v.start = x.start) ↔ ∃ t ∈ fired, Points a.statements.statements t.action.action x.start)

theorem heard_self (coherent : a.Coherent) : Heard a [] [] a where
  since := since_self coherent
  due _ none := by cases none
  validated _ _ _ := by simp

theorem heard_fire {h' : Highlighter} (heard : Heard a fired found h) (member : t ∈ h.scheduler.queue.timers)
    (late : t.deadline ≤ h.scheduler.now) (fires : Fires t h h') :
    Heard a (t :: fired) (found ++ (target? h t.id).toList) h' where
  since := since_fire heard.since member fires
  due other here := by
    rw [fires.clock.1]
    rcases List.mem_cons.mp here with rfl | earlier
    · exact ⟨heard.since.waiting other member, late⟩
    · exact heard.due other earlier
  validated x listed dirty := by
    have earlier := heard.validated x listed dirty
    have stays : Stays fun y =>
        if ∃ p ∈ fired.map fun t : Timer (Job Nat Position) => t.action.action,
          Points a.statements.statements p y.start
        then checked y else y :=
      stays_checked.choose Statement.stays_id _
    simp only [List.mem_append, Option.mem_toList, or_and_right, exists_or, List.exists_mem_cons_iff, earlier]
    by_cases done : ∃ t ∈ fired, Points a.statements.statements t.action.action x.start
    · exact iff_of_true (Or.inl done) (Or.inr done)
    -- Nothing has validated the statement yet, so it is still there as it was.
    · have still : x ∈ h.statements.statements := by
        rw [heard.since.statements]
        refine List.mem_map.mpr ⟨x, listed, if_neg ?_⟩
        rintro ⟨p, here, points⟩
        obtain ⟨other, held, rfl⟩ := List.mem_map.mp here
        exact done ⟨other, held, points⟩
      have now := target?_iff heard.since.coherent member still dirty
      rw [heard.since.statements, Statement.points_map stays] at now
      rw [or_iff_right done, or_iff_left done]
      exact now

theorem heard_fires (discreet : Discreet observe) (ids : List Nat) {s : Nat × σ × Highlighter}
    (heard : Heard a fired found s.2.2)
    (due : ∀ t ∈ s.2.2.scheduler.queue.timers, t.id ∈ ids → t.deadline ≤ s.2.2.scheduler.now) :
    ∃ fired, Heard a fired (found ++ targets observe s ids) (ids.foldl (fire observe) s).2.2 := by
  induction ids generalizing s fired found with
  | nil => exact ⟨fired, by rw [targets, List.append_nil]; exact heard⟩
  | cons id ids ih =>
    rw [List.foldl_cons, targets, ← List.append_assoc]
    rcases fire_cases discreet heard.since.coherent id with ⟨same, absent⟩ | ⟨t, member, rfl, fires⟩
    · have nothing : target? s.2.2 id = none := by
        rw [target?, Scheduler.take_of_absent absent, Option.bind_none]
      rw [same, nothing, Option.toList_none, List.append_nil]
      exact ih heard fun t member listed => due t member (List.mem_cons_of_mem id listed)
    · refine ih (heard_fire heard member (due t member List.mem_cons_self) fires) fun other kept listed => ?_
      rw [fires.timers] at kept
      rw [fires.clock.1]
      exact due other (List.mem_of_mem_filter kept) (List.mem_cons_of_mem t.id listed)

theorem heard_act (discreet : Discreet observe) (heard : Heard a fired found s.2) {e : Event}
    (calm : e.isEdit = false) :
    ∃ fired, Heard a fired (found ++ validated observe s e) (act observe s e).2 := by
  cases e with
  | edit text place => cases calm
  | wait elapsed =>
    have coherent := heard.since.coherent.wait elapsed
    refine ⟨fired, { heard.since with coherent }, fun t here => ?_, ?_⟩
    · obtain ⟨listed, late⟩ := heard.due t here
      exact ⟨listed, Int.le_trans late (Int.le_add_of_nonneg_right (Int.natCast_nonneg elapsed))⟩
    · rw [show validated observe s (.wait elapsed) = [] from rfl, List.append_nil]
      exact heard.validated
  | run =>
    refine heard_fires discreet s.2.scheduler.due (s := (0, s)) heard fun t member listed => ?_
    obtain ⟨other, held, late, number⟩ := TimerQueue.mem_due.mp listed
    have same : other = t := List.inj_on_of_nodup_map heard.since.coherent.timely.distinct held member number
    rw [← same]
    exact late

theorem heard_play (discreet : Discreet observe) (heard : Heard a fired found s.2) (events : List Event)
    (calm : ∀ e ∈ events, e.isEdit = false) :
    ∃ fired, Heard a fired (found ++ validations observe s events) (play observe s events).2 := by
  induction events generalizing s fired found with
  | nil => exact ⟨fired, by rw [validations, List.append_nil]; exact heard⟩
  | cons e events ih =>
    obtain ⟨fired, next⟩ := heard_act discreet heard (calm e List.mem_cons_self)
    rw [validations, ← List.append_assoc]
    exact ih next fun e member => calm e (List.mem_cons_of_mem _ member)

/-- Without an edit, a dirty statement is validated up to a run exactly if a timer points at it whose time
has come by then. -/
theorem play_validates (discreet : Discreet observe) (coherent : s.2.Coherent) {quiet : List Event}
    (calm : ∀ e ∈ quiet, e.isEdit = false) {x : Statement} (listed : x ∈ s.2.statements.statements)
    (dirty : x.dirty = true) :
    (∃ v ∈ validations observe s (quiet ++ [.run]), v.start = x.start) ↔
      ∃ t ∈ s.2.scheduler.queue.timers, t.deadline ≤ s.2.scheduler.now + elapsed quiet ∧
        Points s.2.statements.statements t.action.action x.start := by
  have calm' : ∀ e ∈ quiet ++ [.run], e.isEdit = false := by
    intro e member
    rcases List.mem_append.mp member with earlier | last
    · exact calm e earlier
    · rw [List.mem_singleton.mp last]
      rfl
  obtain ⟨fired, heard⟩ := heard_play discreet (heard_self coherent) (quiet ++ [.run]) calm'
  rw [List.nil_append] at heard
  obtain ⟨⟨_, before⟩, now, _⟩ := since_play discreet (since_self coherent) quiet calm
  obtain ⟨_, now', left⟩ := since_runDue discreet before
  have run : play observe s (quiet ++ [.run]) = (runDue observe (play observe s quiet)).2 := by
    rw [play, List.foldl_append]
    rfl
  rw [run] at heard
  rw [heard.validated x listed dirty]
  constructor
  · rintro ⟨t, here, points⟩
    obtain ⟨waited, late⟩ := heard.due t here
    rw [now', now] at late
    exact ⟨t, waited, late, points⟩
  · rintro ⟨t, waited, late, points⟩
    have gone : t ∉ (runDue observe (play observe s quiet)).2.2.scheduler.queue.timers := by
      intro kept
      have early := (left t kept).2
      omega
    obtain ⟨other, here, same⟩ := List.mem_map.mp ((heard.since.pending t waited).resolve_left gone)
    exact ⟨other, here, by rw [same]; exact points⟩

/-! ### After an edit -/

theorem fire_exclusive (discreet : Discreet observe) {s : Nat × σ × Highlighter} (coherent : s.2.2.Coherent)
    (exclusive : s.2.2.scheduler.Exclusive) (id : Nat) : (fire observe s id).2.2.scheduler.Exclusive := by
  unfold fire
  dsimp only
  cases taken : s.2.2.scheduler.take id with
  | none => exact exclusive
  | some pair =>
    obtain ⟨p, scheduler⟩ := pair
    obtain ⟨_, _, loses⟩ := Scheduler.take_some taken
    have waiting : { s.2.2 with scheduler }.Coherent := { coherent with timely := loses.timely coherent.timely }
    rw [(validateAt_visits discreet (s := (s.2.1, { s.2.2 with scheduler })) waiting p).scheduler]
    exact exclusive.take taken

theorem act_exclusive (discreet : Discreet observe) (coherent : s.2.Coherent)
    (exclusive : s.2.scheduler.Exclusive) (e : Event) : (act observe s e).2.scheduler.Exclusive := by
  cases e with
  | edit text place =>
    have updated : (s.2.update text).scheduler = s.2.scheduler := (update_spec coherent.tokens text).1.scheduler
    show ((s.2.update text).notifyEdit place).scheduler.Exclusive
    unfold notifyEdit
    cases (s.2.update text).statements.atPosition? place with
    | none =>
      rw [updated]
      exact exclusive
    | some entry =>
      show Scheduler.Exclusive (Scheduler.trigger _ _ _)
      rw [updated]
      exact exclusive.trigger coherent.timely.used _ _
  | wait elapsed => exact exclusive.setNow _
  | run =>
    refine (List.foldlRecOn (motive := fun s : Nat × σ × Highlighter => s.2.2.Coherent ∧ s.2.2.scheduler.Exclusive)
      s.2.scheduler.due (fire observe) ⟨coherent, exclusive⟩ ?_).2
    rintro s ⟨coherent, exclusive⟩ id _
    refine ⟨?_, fire_exclusive discreet coherent exclusive id⟩
    rcases fire_cases discreet coherent id with ⟨same, _⟩ | ⟨_, _, _, fires⟩
    · rw [same]
      exact coherent
    · exact fires.coherent

theorem play_exclusive (discreet : Discreet observe) (coherent : s.2.Coherent)
    (exclusive : s.2.scheduler.Exclusive) (events : List Event) :
    (play observe s events).2.scheduler.Exclusive := by
  induction events generalizing s with
  | nil => exact exclusive
  | cons e events ih =>
    exact ih (act_coherent discreet coherent e).1 (act_exclusive discreet coherent exclusive e)

/-- After an edit those timers wait that waited for other offsets before, and its own. -/
theorem edit_timers (coherent : h.Coherent) (exclusive : h.scheduler.Exclusive) {text : Bytes} {place : Position}
    {x : Statement} (resolved : Statement.at? (Statement.parse text) place = some x) :
    t ∈ ((h.update text).notifyEdit place).scheduler.queue.timers ↔
      t ∈ h.scheduler.queue.timers ∧ t.action.key ≠ some x.start ∨
        t = ⟨h.scheduler.queue.nextId, h.scheduler.now + h.scheduler.delay, ⟨some x.start, place⟩⟩ := by
  obtain ⟨enrolled, _, statements⟩ := update_spec coherent.tokens text
  have known := stays_known coherent.reports
  have there := Listing.atPosition?_statement (h.update text).statements place
  rw [statements, Statement.at?_map known, resolved] at there
  obtain ⟨e, found, same⟩ := Option.map_eq_some_iff.mp there
  unfold notifyEdit
  rw [found]
  show t ∈ (Scheduler.trigger _ _ _).queue.timers ↔ _
  rw [enrolled.scheduler, same, known.start, Scheduler.trigger_timers, List.mem_append, List.mem_singleton,
    exclusive.mem_cancelKey]

/-- Whatever happened before the last edit: as long as the delay has not passed since, a run validates the
statement of the edit exactly if a timer from before the edit, set for a statement that began at another
offset, points at it in the last text and its time has come. -/
theorem early_validation_iff (discreet : Discreet observe) (options : HighlighterOptions) (level : LogLevel)
    (note : σ) (time : Int) (history : List Event) (text : Bytes) (place : Position) (x : Statement)
    (resolved : Statement.at? (Statement.parse text) place = some x) (quiet : List Event)
    (calm : ∀ e ∈ quiet, e.isEdit = false) (early : elapsed quiet < options.debounce) :
    let before := play observe (note, (new options level).setClock time) history
    let after := act observe before (.edit text place)
    (∃ v ∈ validations observe after (quiet ++ [.run]), v.start = x.start) ↔
      ∃ t ∈ before.2.scheduler.queue.timers, t.action.key ≠ some x.start ∧
        t.deadline ≤ before.2.scheduler.now + elapsed quiet ∧
        Points (Statement.parse text) t.action.action x.start := by
  intro before after
  have start := coherent_new options level time
  obtain ⟨coherent, delay⟩ := play_coherent discreet (s := (note, (new options level).setClock time)) start history
  have exclusive := play_exclusive discreet (s := (note, (new options level).setClock time)) start
    (Scheduler.exclusive_new time options.debounce) history
  have edited := act_coherent discreet coherent (.edit text place)
  have now : after.2.scheduler.now = before.2.scheduler.now := by
    rw [← (update_spec coherent.tokens text).1.scheduler]
    exact (notifyEdit_clock (before.2.update text) place).1
  have points : Points (Statement.parse text) place x.start := by
    rw [Points, resolved, Option.map_some]
  have listed : soiled (before.2.known x) ∈ after.2.statements.statements := by
    show _ ∈ ((before.2.update text).notifyEdit place).statements.statements
    rw [edit_statements coherent]
    exact List.mem_map.mpr ⟨x, Statement.mem_of_at? resolved, if_pos points⟩
  have place' : (soiled (before.2.known x)).start = x.start := (stays_known coherent.reports).start x
  have validates := play_validates discreet edited.1 calm listed rfl
  rw [place', now] at validates
  rw [validates]
  have pointed (t : Timer (Job Nat Position)) :
      Points after.2.statements.statements t.action.action x.start ↔
        Points (Statement.parse text) t.action.action x.start := edit_points coherent text place
  have waits (t : Timer (Job Nat Position)) : t ∈ after.2.scheduler.queue.timers ↔
      t ∈ before.2.scheduler.queue.timers ∧ t.action.key ≠ some x.start ∨
        t = ⟨before.2.scheduler.queue.nextId, before.2.scheduler.now + before.2.scheduler.delay,
          ⟨some x.start, place⟩⟩ := edit_timers coherent exclusive resolved
  constructor
  · rintro ⟨t, member, late, there⟩
    rcases (waits t).mp member with ⟨old, other⟩ | rfl
    · exact ⟨t, old, other, late, (pointed t).mp there⟩
    -- The timer of the edit itself waits for the whole delay.
    · have delayed : before.2.scheduler.delay = options.debounce := delay
      dsimp only at late
      omega
  · rintro ⟨t, old, other, late, there⟩
    exact ⟨t, (waits t).mpr (Or.inl ⟨old, other⟩), late, (pointed t).mpr there⟩

/-- An edit of a statement, and almost the whole delay. -/
def drifting : List Event := [.edit (ascii "b;") ⟨0, 0⟩, .wait 199]

/-- A blank moves the statement by one byte, in the line at which the first timer points. -/
def drifted : Bytes := ascii " b;"

theorem drifted_statement_early :
    let x := Statement.ofCode (ascii "b;") 1 ⟨0, 1⟩
    let after := act Checker.silent (play Checker.silent ((), (new {} .off).setClock 0) drifting)
      (.edit drifted ⟨0, 1⟩)
    Discreet Checker.silent ∧ Statement.at? (Statement.parse drifted) ⟨0, 1⟩ = some x ∧
      (∀ e ∈ [Event.wait 1], e.isEdit = false) ∧ elapsed [.wait 1] < ({} : HighlighterOptions).debounce ∧
      ∃ v ∈ validations Checker.silent after ([.wait 1] ++ [.run]), v.start = x.start := by
  intro x after
  have discreet : Discreet Checker.silent := fun _ _ => rfl
  have resolved : Statement.at? (Statement.parse drifted) ⟨0, 1⟩ = some x := by decide +kernel
  have calm : ∀ e ∈ [Event.wait 1], e.isEdit = false := by decide
  have early : elapsed [.wait 1] < ({} : HighlighterOptions).debounce := by decide
  refine ⟨discreet, resolved, calm, early, ?_⟩
  refine (early_validation_iff discreet {} .off () 0 drifting drifted ⟨0, 1⟩ x resolved [.wait 1] calm early).mpr ?_
  decide +kernel

end Highlighter
end QueryService
