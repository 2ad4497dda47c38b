import QueryService.Checker
import QueryService.Proofs.Highlighter.Coherence

/-!
# After the quiet period

An edit is a new text together with the place of the change. Once the delay has passed since the last
edit, every timer that was waiting then has fired, and has validated the statement that its position
points at in the last text. `quiet_period_settles` says which statements are clean by then: those whose
report was cached when the last text came, and those that a waiting timer points at. A statement that an
edit further up has moved away from its timer is not among them.
-/

namespace QueryService
namespace Highlighter

open Statement (Points Stays)

variable {σ : Type} {observe : Observer σ} {a h h' : Highlighter} {s : σ × Highlighter}

inductive Event where
  | edit (text : Bytes) (place : Position)
  | wait (elapsed : Nat)
  | run
  deriving DecidableEq, Repr

def Event.isEdit : Event → Bool
  | .edit _ _ => true
  | _ => false

def Event.elapsed : Event → Nat
  | .wait elapsed => elapsed
  | _ => 0

def elapsed (events : List Event) : Nat := (events.map Event.elapsed).sum

def act (observe : Observer σ) (s : σ × Highlighter) : Event → σ × Highlighter
  | .edit text place => (s.1, (s.2.update text).notifyEdit place)
  | .wait elapsed => (s.1, s.2.setClock (s.2.scheduler.now + elapsed))
  | .run => (runDue observe s).2

def play (observe : Observer σ) (s : σ × Highlighter) (events : List Event) : σ × Highlighter :=
  events.foldl (act observe) s

/-- The code of the statement that an edit was in. -/
def edited? (h : Highlighter) : Event → Option Bytes
  | .edit text place => ((h.update text).statements.atPosition? place).map (·.statement.code)
  | _ => none

/-- The codes of the statements that the edits of a run were in. -/
def edited (observe : Observer σ) (s : σ × Highlighter) : List Event → List Bytes
  | [] => []
  | e :: events => (s.2.edited? e).toList ++ edited observe (act observe s e) events

/-- A timer waits that points at the statement. -/
def Awaits (h : Highlighter) (s : Statement) : Prop :=
  ∃ t ∈ h.scheduler.queue.timers, Points h.statements.statements t.action.action s.start

instance (h : Highlighter) (s : Statement) : Decidable (h.Awaits s) :=
  inferInstanceAs (Decidable (∃ t ∈ h.scheduler.queue.timers, _))

/-! ### What has fired since -/

/-- Since `a`, timers at the positions `fired` have fired, and nothing else has happened but that time went by. -/
structure Since (a : Highlighter) (fired : List Position) (h : Highlighter) : Prop where
  coherent : h.Coherent
  statements : h.statements.statements = a.statements.statements.map fun s =>
    if ∃ p ∈ fired, Points a.statements.statements p s.start then checked s else s
  waiting : ∀ t ∈ h.scheduler.queue.timers, t ∈ a.scheduler.queue.timers
  pending : ∀ t ∈ a.scheduler.queue.timers, t ∈ h.scheduler.queue.timers ∨ t.action.action ∈ fired
  origin : ∀ p ∈ fired, ∃ t ∈ a.scheduler.queue.timers, t.action.action = p
  delay : h.scheduler.delay = a.scheduler.delay

theorem since_self (coherent : a.Coherent) : Since a [] a where
  coherent := coherent
  statements := by
    refine (map_eq_self fun s _ => if_neg ?_).symm
    rintro ⟨_, none, _⟩
    cases none
  waiting _ member := member
  pending _ member := Or.inl member
  origin _ none := by cases none
  delay := rfl

theorem since_fire {fired : List Position} (since : Since a fired h) {t : Timer (Job Nat Position)}
    (member : t ∈ h.scheduler.queue.timers) (fires : Fires t h h') : Since a (t.action.action :: fired) h' where
  coherent := fires.coherent
  statements := by
    have stays : Stays fun s => if ∃ p ∈ fired, Points a.statements.statements p s.start then checked s else s :=
      stays_checked.choose Statement.stays_id _
    rw [fires.statements, since.statements, List.map_map]
    refine List.map_congr_left fun s _ => ?_
    show (if Points _ _ _ then checked _ else _) = _
    simp only [Statement.points_map stays, stays.start s, List.exists_mem_cons_iff]
    by_cases points : Points a.statements.statements t.action.action s.start
    · rw [if_pos points, if_pos (Or.inl points)]
      split
      · exact checked_checked s
      · rfl
    · rw [if_neg points]
      simp only [points, false_or]
  waiting other kept := by
    rw [fires.timers] at kept
    exact since.waiting other (List.mem_of_mem_filter kept)
  pending other listed := by
    rcases since.pending other listed with kept | gone
    · by_cases same : other.id = t.id
      -- A timer is removed by its number, which no other one has.
      · have equal : other = t := List.inj_on_of_nodup_map since.coherent.timely.distinct kept member same
        rw [equal]
        exact Or.inr List.mem_cons_self
      · rw [fires.timers]
        exact Or.inl (List.mem_filter.mpr ⟨kept, bne_iff_ne.mpr same⟩)
    · exact Or.inr (List.mem_cons_of_mem _ gone)
  origin p here := by
    rcases List.mem_cons.mp here with rfl | earlier
    · exact ⟨t, since.waiting t member, rfl⟩
    · exact since.origin p earlier
  delay := fires.clock.2.trans since.delay

theorem since_fires (discreet : Discreet observe) (ids : List Nat) {s : Nat × σ × Highlighter}
    {fired : List Position} (since : Since a fired s.2.2) :
    (∃ fired, Since a fired (ids.foldl (fire observe) s).2.2) ∧
      (ids.foldl (fire observe) s).2.2.scheduler.now = s.2.2.scheduler.now ∧
      ∀ t ∈ (ids.foldl (fire observe) s).2.2.scheduler.queue.timers,
        t ∈ s.2.2.scheduler.queue.timers ∧ t.id ∉ ids := by
  induction ids generalizing s fired with
  | nil => exact ⟨⟨fired, since⟩, rfl, fun t member => ⟨member, List.not_mem_nil⟩⟩
  | cons id ids ih =>
    rw [List.foldl_cons]
    rcases fire_cases discreet since.coherent id with ⟨same, absent⟩ | ⟨t, member, rfl, fires⟩
    · rw [same]
      obtain ⟨later, now, left⟩ := ih since
      refine ⟨later, now, fun other kept => ?_⟩
      obtain ⟨listed, spared⟩ := left other kept
      exact ⟨listed, fun here => (List.mem_cons.mp here).elim (absent other listed) spared⟩
    · obtain ⟨later, now, left⟩ := ih (since_fire since member fires)
      refine ⟨later, now.trans fires.clock.1, fun other kept => ?_⟩
      obtain ⟨listed, spared⟩ := left other kept
      rw [fires.timers] at listed
      obtain ⟨listed, differs⟩ := List.mem_filter.mp listed
      exact ⟨listed, fun here => (List.mem_cons.mp here).elim (bne_iff_ne.mp differs) spared⟩

theorem since_runDue (discreet : Discreet observe) {fired : List Position} (since : Since a fired s.2) :
    (∃ fired, Since a fired (runDue observe s).2.2) ∧
      (runDue observe s).2.2.scheduler.now = s.2.scheduler.now ∧
      ∀ t ∈ (runDue observe s).2.2.scheduler.queue.timers,
        t ∈ s.2.scheduler.queue.timers ∧ s.2.scheduler.now < t.deadline := by
  obtain ⟨later, now, left⟩ := since_fires discreet s.2.scheduler.due (s := (0, s)) since
  refine ⟨later, now, fun t kept => ?_⟩
  obtain ⟨listed, spared⟩ := left t kept
  refine ⟨listed, Int.not_le.mp fun late => spared ?_⟩
  exact TimerQueue.mem_due.mpr ⟨t, listed, late, rfl⟩

/-- What happens between two edits fires timers at most. -/
theorem since_act (discreet : Discreet observe) {fired : List Position} (since : Since a fired s.2) {e : Event}
    (calm : e.isEdit = false) :
    (∃ fired, Since a fired (act observe s e).2) ∧
      (act observe s e).2.scheduler.now = s.2.scheduler.now + e.elapsed ∧
      ∀ t ∈ (act observe s e).2.scheduler.queue.timers, t ∈ s.2.scheduler.queue.timers := by
  cases e with
  | edit text place => cases calm
  | wait elapsed =>
    exact ⟨⟨fired, { since with coherent := since.coherent.wait elapsed }⟩, rfl, fun _ member => member⟩
  | run =>
    obtain ⟨later, now, left⟩ := since_runDue discreet since
    exact ⟨later, now.trans (Int.add_zero _).symm, fun t kept => (left t kept).1⟩

theorem since_play (discreet : Discreet observe) {fired : List Position} (since : Since a fired s.2)
    (events : List Event) (calm : ∀ e ∈ events, e.isEdit = false) :
    (∃ fired, Since a fired (play observe s events).2) ∧
      (play observe s events).2.scheduler.now = s.2.scheduler.now + elapsed events ∧
      ∀ t ∈ (play observe s events).2.scheduler.queue.timers, t ∈ s.2.scheduler.queue.timers := by
  induction events generalizing s fired with
  | nil => exact ⟨⟨fired, since⟩, (Int.add_zero _).symm, fun _ member => member⟩
  | cons e events ih =>
    obtain ⟨⟨fired, next⟩, now, left⟩ := since_act discreet since (calm e List.mem_cons_self)
    obtain ⟨later, now', left'⟩ := ih next fun e member => calm e (List.mem_cons_of_mem _ member)
    have total : (elapsed (e :: events) : Int) = e.elapsed + elapsed events := by
      rw [elapsed, List.map_cons, List.sum_cons, Int.natCast_add, elapsed]
    refine ⟨later, ?_, fun t kept => left t (left' t kept)⟩
    rw [total, ← Int.add_assoc, ← now]
    exact now'

/-- Once the delay has passed and the timers have run, what waited has fired. -/
theorem play_settled (discreet : Discreet observe) (coherent : s.2.Coherent) {quiet later : List Event}
    (calm : ∀ e ∈ quiet ++ later, e.isEdit = false) (waited : s.2.scheduler.delay ≤ elapsed quiet) :
    (play observe s (quiet ++ .run :: later)).2.statements.statements =
        s.2.statements.statements.map (fun t => if s.2.Awaits t then checked t else t) ∧
      (play observe s (quiet ++ .run :: later)).2.scheduler.queue.timers = [] := by
  obtain ⟨⟨fired, since⟩, now, left⟩ := since_play discreet (since_self coherent) quiet
    fun e member => calm e (List.mem_append_left _ member)
  obtain ⟨⟨fired, since⟩, _, left'⟩ := since_runDue discreet since
  obtain ⟨⟨fired, since⟩, _, left''⟩ := since_play discreet since later
    fun e member => calm e (List.mem_append_right _ member)
  have run : play observe s (quiet ++ .run :: later) =
      play observe (runDue observe (play observe s quiet)).2 later := by
    rw [play, List.foldl_append]
    rfl
  -- A timer that is left would have its deadline both before and after the moment of the run.
  have empty (t : Timer (Job Nat Position)) :
      t ∉ (play observe (runDue observe (play observe s quiet)).2 later).2.scheduler.queue.timers := by
    intro kept
    have soon := coherent.timely.soon t (since.waiting t kept)
    have early := (left' t (left'' t kept)).2
    omega
  rw [run]
  refine ⟨?_, List.eq_nil_iff_forall_not_mem.mpr empty⟩
  rw [since.statements]
  refine List.map_congr_left fun t _ => ?_
  have awaited : (∃ p ∈ fired, Points s.2.statements.statements p t.start) ↔ s.2.Awaits t := by
    constructor
    · rintro ⟨p, here, points⟩
      obtain ⟨timer, member, rfl⟩ := since.origin p here
      exact ⟨timer, member, points⟩
    · rintro ⟨timer, member, points⟩
      exact ⟨timer.action.action, (since.pending timer member).resolve_left (empty timer), points⟩
  simp only [awaited]

/-! ### From the beginning -/

theorem act_coherent (discreet : Discreet observe) (coherent : s.2.Coherent) (e : Event) :
    (act observe s e).2.Coherent ∧ (act observe s e).2.scheduler.delay = s.2.scheduler.delay := by
  by_cases edit : e.isEdit = true
  · cases e with
    | edit text place =>
      refine ⟨(coherent.update text).notifyEdit place, (notifyEdit_clock _ place).2.trans ?_⟩
      rw [(update_spec coherent.tokens text).1.scheduler]
    | wait elapsed => cases edit
    | run => cases edit
  · obtain ⟨⟨_, since⟩, _⟩ := since_act discreet (since_self coherent) (Bool.eq_false_of_not_eq_true edit)
    exact ⟨since.coherent, since.delay⟩

theorem play_coherent (discreet : Discreet observe) (coherent : s.2.Coherent) (events : List Event) :
    (play observe s events).2.Coherent ∧ (play observe s events).2.scheduler.delay = s.2.scheduler.delay := by
  induction events generalizing s with
  | nil => exact ⟨coherent, rfl⟩
  | cons e events ih =>
    obtain ⟨next, delay⟩ := act_coherent discreet coherent e
    obtain ⟨last, delay'⟩ := ih next
    exact ⟨last, delay'.trans delay⟩

theorem edit_points (coherent : h.Coherent) (text : Bytes) (place : Position) {p : Position} {start : Nat} :
    Points ((h.update text).notifyEdit place).statements.statements p start ↔
      Points (Statement.parse text) p start := by
  rw [notifyEdit_statements (coherent.update text), Statement.points_map (stays_soiled.choose Statement.stays_id _),
    (update_spec coherent.tokens text).2.2, Statement.points_map (stays_known coherent.reports)]

theorem edit_statements (coherent : h.Coherent) (text : Bytes) (place : Position) :
    ((h.update text).notifyEdit place).statements.statements = (Statement.parse text).map fun s =>
      if Points (Statement.parse text) place s.start then soiled (h.known s) else h.known s := by
  have known := stays_known coherent.reports
  rw [notifyEdit_statements (coherent.update text), (update_spec coherent.tokens text).2.2, List.map_map]
  refine List.map_congr_left fun s _ => ?_
  show (if Points _ _ _ then _ else _) = _
  simp only [Statement.points_map known, known.start s]

/-- The statement that an edit is in waits for its validation. -/
theorem edit_awaits (coherent : h.Coherent) {text : Bytes} {place : Position} {s : Statement}
    (points : Points (Statement.parse text) place s.start) : ((h.update text).notifyEdit place).Awaits s := by
  have there : Points (h.update text).statements.statements place s.start := by
    rw [(update_spec coherent.tokens text).2.2, Statement.points_map (stays_known coherent.reports)]
    exact points
  obtain ⟨t, member, rfl⟩ := notifyEdit_waits there
  exact ⟨t, member, (edit_points coherent text t.action.action).mpr points⟩

/-- What becomes of the statements of the last text when all that waits after an edit has fired. -/
theorem edit_settled (coherent : h.Coherent) (text : Bytes) (place : Position) :
    (((h.update text).notifyEdit place).statements.statements.map fun t =>
        if ((h.update text).notifyEdit place).Awaits t then checked t else t) =
      (Statement.parse text).map fun s =>
        if h.resultCache.contains s.code = true ∨ ((h.update text).notifyEdit place).Awaits s then checked s
        else s := by
  rw [edit_statements coherent, List.map_map]
  refine List.map_congr_left fun s _ => ?_
  have known := congrFun (known_eq coherent.reports) s
  have start := (stays_known coherent.reports).start s
  dsimp only [Function.comp_apply]
  by_cases points : Points (Statement.parse text) place s.start
  · have awaits := edit_awaits coherent points
    have moved : ((h.update text).notifyEdit place).Awaits (soiled (h.known s)) := by
      rw [Awaits, stays_soiled.start, start]
      exact awaits
    rw [if_pos points, if_pos moved, if_pos (Or.inr awaits), known]
    split <;> rfl
  · rw [if_neg points, known]
    by_cases cached : h.resultCache.contains s.code = true
    · rw [if_pos cached, if_pos (Or.inl cached), checked_checked, ite_self]
    · rw [if_neg cached]
      simp only [or_iff_right cached]

/-- A statement of a text is dirty until it is checked, and stays where it is. -/
theorem checked_if {text : Bytes} {s : Statement} (q : Prop) [Decidable q] (member : s ∈ Statement.parse text) :
    ((if q then checked s else s).dirty = false ↔ q) ∧ (if q then checked s else s).start = s.start ∧
      (if q then checked s else s).code = s.code := by
  have dirty := (Statement.parse_tokens member).2
  split
  · rename_i holds
    exact ⟨iff_of_true rfl holds, rfl, rfl⟩
  · rename_i fails
    exact ⟨iff_of_false (fun clean => by rw [dirty] at clean; cases clean) fails, rfl, rfl⟩

/-- Whatever happened before the last edit: when the delay has passed since and the timers have run, the
clean statements are those whose report was cached when the text of the edit came, and those that a timer
waiting after the edit points at; the others are dirty and nothing is pending. The statement of the last
edit is clean. All statements edited in the run are clean exactly if each has its report in the cache or a
timer that points at it. -/
theorem quiet_period_settles (discreet : Discreet observe) (options : HighlighterOptions) (level : LogLevel)
    (note : σ) (time : Int) (history : List Event) (text : Bytes) (place : Position) (quiet later : List Event)
    (calm : ∀ e ∈ quiet ++ later, e.isEdit = false) (waited : options.debounce ≤ elapsed quiet) :
    let start := (note, (new options level).setClock time)
    let events := history ++ .edit text place :: (quiet ++ .run :: later)
    let before := (play observe start history).2
    let after := (before.update text).notifyEdit place
    let settled := (play observe start events).2
    settled.scheduler.queue.timers = [] ∧
      settled.statements.statements = (Statement.parse text).map (fun s =>
        if before.resultCache.contains s.code = true ∨ after.Awaits s then checked s else s) ∧
      (∀ s ∈ settled.statements.statements, Points (Statement.parse text) place s.start → s.dirty = false) ∧
      ((∀ s ∈ settled.statements.statements, s.code ∈ edited observe start events → s.dirty = false) ↔
        ∀ s ∈ Statement.parse text, s.code ∈ edited observe start events →
          before.resultCache.contains s.code = true ∨ after.Awaits s) := by
  intro start events before after settled
  obtain ⟨coherent, delay⟩ := play_coherent discreet (s := start) (coherent_new options level time) history
  have run : settled = (play observe ((play observe start history).1, after) (quiet ++ .run :: later)).2 := by
    show (play observe start (history ++ _)).2 = _
    rw [play, List.foldl_append]
    rfl
  have edit := act_coherent discreet coherent (.edit text place)
  have waited : after.scheduler.delay ≤ elapsed quiet := by
    rw [show after.scheduler.delay = options.debounce from edit.2.trans delay]
    exact waited
  obtain ⟨statements, timers⟩ := play_settled discreet (s := ((play observe start history).1, after)) edit.1 calm
    waited
  rw [← run] at statements timers
  rw [edit_settled coherent] at statements
  refine ⟨timers, statements, ?_, ?_⟩
  · intro s member points
    rw [statements] at member
    obtain ⟨parsed, listed, rfl⟩ := List.mem_map.mp member
    obtain ⟨clean, start, _⟩ := checked_if (before.resultCache.contains parsed.code = true ∨ after.Awaits parsed) listed
    rw [start] at points
    exact clean.mpr (Or.inr (edit_awaits coherent points))
  · rw [statements, List.forall_mem_map]
    refine forall_congr' fun s => forall_congr' fun member => ?_
    obtain ⟨clean, _, code⟩ := checked_if (before.resultCache.contains s.code = true ∨ after.Awaits s) member
    rw [clean, code]

/-- An edit in the second statement, and then one that puts a new statement and a blank line before it. -/
def moved : List Event := [.edit (ascii "a;\nb;") ⟨1, 0⟩]

def movedBy : Bytes := ascii "x;\n\na;\nb;"

theorem moved_statement_dirty :
    Discreet Checker.silent ∧ (∀ e ∈ [Event.wait 200], e.isEdit = false) ∧
      ({} : HighlighterOptions).debounce ≤ elapsed [.wait 200] ∧
      let start := ((), (new {} .off).setClock 0)
      let events := moved ++ [.edit movedBy ⟨0, 0⟩, .wait 200, .run]
      let settled := (play Checker.silent start events).2
      settled.scheduler.queue.timers = [] ∧
        ∃ s ∈ settled.statements.statements, s.code ∈ edited Checker.silent start events ∧ s.dirty = true := by
  have discreet : Discreet Checker.silent := fun _ _ => rfl
  have calm : ∀ e ∈ [Event.wait 200], e.isEdit = false := by decide
  have waited : ({} : HighlighterOptions).debounce ≤ elapsed [.wait 200] := by decide
  obtain ⟨timers, _, _, complete⟩ := quiet_period_settles discreet {} .off () 0 moved movedBy ⟨0, 0⟩
    [.wait 200] [] calm waited
  refine ⟨discreet, calm, waited, timers, ?_⟩
  by_contra clean
  have all := complete.mp fun s member listed =>
    Bool.eq_false_of_not_eq_true fun dirty => clean ⟨s, member, listed, dirty⟩
  exact absurd all (by decide +kernel)

end Highlighter
end QueryService
