import QueryService.Proofs.Highlighter.Effects
import QueryService.Proofs.Statement.Pointing
import QueryService.Proofs.Timer.Waiting

/-!
# Coherent highlighters

In a coherent highlighter the caches tell the truth, a clean statement shows the verdict on its code, and
no timer waits longer than the delay. A new text, an edit, the clock and the firing of a timer keep it so.
-/

namespace QueryService
namespace Highlighter

open Statement (Points Stays)

variable {σ : Type} {observe : Observer σ} {h h' : Highlighter}

structure Coherent (h : Highlighter) : Prop where
  tokens : h.tokenCache.Faithful QueryService.tokenize
  reports : h.resultCache.Faithful reportOn
  numbered : h.statements.Numbered
  distinct : (h.statements.statements.map (·.start)).Nodup
  verdicts : ∀ s ∈ h.statements.statements, s.dirty = false → checked s = s
  timely : h.scheduler.Timely

theorem coherent_new (options : HighlighterOptions) (level : LogLevel) (time : Int) :
    ((new options level).setClock time).Coherent where
  tokens _ member := by cases member
  reports _ member := by cases member
  numbered := ⟨List.nodup_nil, fun _ member => by cases member⟩
  distinct := List.nodup_nil
  verdicts _ member := by cases member
  timely := Scheduler.timely_new time options.debounce

theorem stays_checked : Stays checked := ⟨fun _ => rfl, fun _ => rfl, fun _ => rfl⟩

theorem checked_checked (s : Statement) : checked (checked s) = checked s := rfl

/-! ### New texts and edits -/

theorem known_eq (reports : h.resultCache.Faithful reportOn) :
    h.known = fun s => if h.resultCache.contains s.code then checked s else s := by
  funext s
  unfold known Cache.contains
  cases found : h.resultCache.find? s.code with
  | none => rfl
  | some e =>
    show { s with dirty := false, valid := e.value.valid } = checked s
    rw [reports.find? found, checked]

theorem stays_known (reports : h.resultCache.Faithful reportOn) : Stays h.known := by
  rw [known_eq reports]
  exact stays_checked.choose Statement.stays_id _

theorem Coherent.update (coherent : h.Coherent) (text : Bytes) : (h.update text).Coherent := by
  obtain ⟨enrolled, numbered, statements⟩ := update_spec coherent.tokens text
  refine ⟨enrolled.faithful, ?_, numbered, ?_, ?_, ?_⟩
  · exact update_results (P := fun c => c.Faithful reportOn) (fun c key faithful => faithful.get key) text
      coherent.reports
  · rw [statements, Statement.starts_map (stays_known coherent.reports)]
    exact Statement.starts_parse text
  · intro s member clean
    rw [statements, known_eq coherent.reports] at member
    obtain ⟨parsed, listed, rfl⟩ := List.mem_map.mp member
    split at clean
    · rename_i cached
      rw [if_pos cached]
      exact checked_checked parsed
    · rw [(Statement.parse_tokens listed).2] at clean
      cases clean
  · rw [enrolled.scheduler]
    exact coherent.timely

/-- A statement after an edit in it. -/
def soiled (s : Statement) : Statement := { s with dirty := true }

theorem stays_soiled : Stays soiled := ⟨fun _ => rfl, fun _ => rfl, fun _ => rfl⟩

theorem notifyEdit_statements (coherent : h.Coherent) (p : Position) :
    (h.notifyEdit p).statements.statements =
      h.statements.statements.map fun s => if Points h.statements.statements p s.start then soiled s else s := by
  unfold notifyEdit
  cases found : h.statements.atPosition? p with
  | none =>
    exact (map_eq_self fun s _ => if_neg (Listing.points_none found s.start)).symm
  | some e => exact Listing.statements_replace coherent.numbered coherent.distinct found soiled

theorem notifyEdit_caches (h : Highlighter) (p : Position) :
    (h.notifyEdit p).tokenCache = h.tokenCache ∧ (h.notifyEdit p).resultCache = h.resultCache := by
  unfold notifyEdit
  split <;> exact ⟨rfl, rfl⟩

theorem notifyEdit_clock (h : Highlighter) (p : Position) :
    (h.notifyEdit p).scheduler.now = h.scheduler.now ∧ (h.notifyEdit p).scheduler.delay = h.scheduler.delay := by
  unfold notifyEdit
  split
  · exact ⟨rfl, rfl⟩
  · exact Scheduler.trigger_clock _ _ _

theorem notifyEdit_waits {p : Position} {start : Nat} (points : Points h.statements.statements p start) :
    ∃ t ∈ (h.notifyEdit p).scheduler.queue.timers, t.action.action = p := by
  unfold notifyEdit
  cases found : h.statements.atPosition? p with
  | none => exact absurd points (Listing.points_none found start)
  | some e =>
    dsimp only
    rw [Scheduler.trigger_timers]
    exact ⟨_, List.mem_append_right _ (List.mem_singleton_self _), rfl⟩

theorem numbered_change (coherent : h.Coherent) {p : Position} {e : Entry}
    (found : h.statements.atPosition? p = some e) (s : Statement) : (h.statements.replace e s).Numbered := by
  obtain ⟨before, behind, split⟩ := List.append_of_mem (Listing.atPosition?_mem found)
  exact Listing.numbered_replace coherent.numbered split s

theorem Coherent.notifyEdit (coherent : h.Coherent) (p : Position) : (h.notifyEdit p).Coherent := by
  have caches := notifyEdit_caches h p
  have statements := notifyEdit_statements coherent p
  refine ⟨caches.1 ▸ coherent.tokens, caches.2 ▸ coherent.reports, ?_, ?_, ?_, ?_⟩
  · unfold Highlighter.notifyEdit
    cases found : h.statements.atPosition? p with
    | none => exact coherent.numbered
    | some e => exact numbered_change coherent found _
  · rw [statements, Statement.starts_map (stays_soiled.choose Statement.stays_id _)]
    exact coherent.distinct
  · intro s member clean
    rw [statements] at member
    obtain ⟨old, listed, rfl⟩ := List.mem_map.mp member
    split at clean
    · cases clean
    · rename_i apart
      rw [if_neg apart]
      exact coherent.verdicts old listed clean
  · unfold Highlighter.notifyEdit
    cases h.statements.atPosition? p with
    | none => exact coherent.timely
    | some e => exact coherent.timely.trigger _ _

theorem Coherent.wait (coherent : h.Coherent) (elapsed : Nat) :
    (h.setClock (h.scheduler.now + elapsed)).Coherent :=
  { coherent with timely := coherent.timely.wait elapsed }

/-! ### Timers that fire -/

/-- An observer that takes notes at most. -/
def Discreet (observe : Observer σ) : Prop := ∀ v s, (observe v s).2 = s.2

/-- What a look at a position changes: the statement there is validated, unless it is clean. -/
structure Visits (p : Position) (h h' : Highlighter) : Prop where
  coherent : h'.Coherent
  statements : h'.statements.statements =
    h.statements.statements.map fun s => if Points h.statements.statements p s.start then checked s else s
  scheduler : h'.scheduler = h.scheduler

/-- A look at a position where no statement is dirty changes nothing. -/
theorem Coherent.visits_self (coherent : h.Coherent) {p : Position}
    (clean : ∀ s ∈ h.statements.statements, Points h.statements.statements p s.start → s.dirty = false) :
    Visits p h h where
  coherent := coherent
  statements := by
    refine (map_eq_self fun s member => ?_).symm
    split
    · rename_i points
      exact coherent.verdicts s member (clean s member points)
    · rfl
  scheduler := rfl

theorem Validates.visits (coherent : h.Coherent) {p : Position} {e : Entry}
    (found : h.statements.atPosition? p = some e) (validates : Validates e h h') : Visits p h h' := by
  have statements : h'.statements.statements =
      h.statements.statements.map fun s => if Points h.statements.statements p s.start then checked s else s := by
    rw [validates.statements]
    exact Listing.statements_replace coherent.numbered coherent.distinct found checked
  refine ⟨⟨validates.faithful, ?_, ?_, ?_, ?_, ?_⟩, statements, validates.scheduler⟩
  · rw [validates.results]
    exact coherent.reports.put e.statement.code
  · rw [validates.statements]
    exact numbered_change coherent found _
  · rw [statements, Statement.starts_map (stays_checked.choose Statement.stays_id _)]
    exact coherent.distinct
  · intro s member clean
    rw [statements] at member
    obtain ⟨old, listed, rfl⟩ := List.mem_map.mp member
    split at clean
    · rename_i points
      rw [if_pos points]
      exact checked_checked old
    · rename_i apart
      rw [if_neg apart]
      exact coherent.verdicts old listed clean
  · rw [validates.scheduler]
    exact coherent.timely

theorem validateAt_visits (discreet : Discreet observe) {s : σ × Highlighter} (coherent : s.2.Coherent)
    (p : Position) : Visits p s.2 (validateAt observe s p).2 := by
  unfold validateAt
  cases found : s.2.statements.atPosition? p with
  | none => exact coherent.visits_self fun t _ points => absurd points (Listing.points_none found t.start)
  | some e =>
    dsimp only
    split
    · rw [announce, discreet]
      exact (validateEntry_spec coherent.tokens e).visits coherent found
    · rename_i clean
      refine coherent.visits_self fun t member points => ?_
      obtain ⟨other, held, rfl⟩ := List.mem_map.mp member
      have same : other.statement = e.statement :=
        List.inj_on_of_nodup_map coherent.distinct member
          (List.mem_map_of_mem (Listing.atPosition?_mem found)) ((Listing.points_iff found).mp points)
      rw [same]
      exact Bool.eq_false_of_not_eq_true clean

/-- What the firing of a timer changes. -/
structure Fires (t : Timer (Job Nat Position)) (h h' : Highlighter) : Prop where
  coherent : h'.Coherent
  statements : h'.statements.statements = h.statements.statements.map fun s =>
    if Points h.statements.statements t.action.action s.start then checked s else s
  timers : h'.scheduler.queue.timers = h.scheduler.queue.timers.filter (·.id != t.id)
  clock : h'.scheduler.now = h.scheduler.now ∧ h'.scheduler.delay = h.scheduler.delay

theorem fire_cases (discreet : Discreet observe) {s : Nat × σ × Highlighter} (coherent : s.2.2.Coherent)
    (id : Nat) :
    (fire observe s id = s ∧ ∀ t ∈ s.2.2.scheduler.queue.timers, t.id ≠ id) ∨
      ∃ t ∈ s.2.2.scheduler.queue.timers, t.id = id ∧ Fires t s.2.2 (fire observe s id).2.2 := by
  unfold fire
  dsimp only
  cases taken : s.2.2.scheduler.take id with
  | none => exact Or.inl ⟨rfl, Scheduler.take_none taken⟩
  | some pair =>
    obtain ⟨p, scheduler⟩ := pair
    obtain ⟨⟨t, member, rfl, rfl⟩, timers, loses⟩ := Scheduler.take_some taken
    have waiting : { s.2.2 with scheduler }.Coherent := { coherent with timely := loses.timely coherent.timely }
    have visits := validateAt_visits discreet (s := (s.2.1, { s.2.2 with scheduler })) waiting t.action.action
    refine Or.inr ⟨t, member, rfl, visits.coherent, visits.statements, ?_, ?_⟩
    · rw [visits.scheduler]
      exact timers
    · rw [visits.scheduler]
      exact ⟨loses.now, loses.delay⟩

end Highlighter
end QueryService
