import Mathlib.Data.List.Nodup
import QueryService.Timer.Scheduler

/-!
# Timers that wait

A scheduler whose timers all came from `trigger` never lets one wait longer than its delay, however its
clock goes forward (`Timely`). What is due at a moment is taken out timer by timer, each by its number.
-/

namespace QueryService

namespace TimerQueue

variable {α : Type} {q : TimerQueue α}

theorem mem_insertByDeadline {t other : Timer α} {timers : List (Timer α)} :
    t ∈ insertByDeadline other timers ↔ t = other ∨ t ∈ timers := by
  induction timers with
  | nil => exact List.mem_cons
  | cons first rest ih =>
    rw [insertByDeadline]
    split
    · exact List.mem_cons
    · rw [List.mem_cons, List.mem_cons, ih]
      exact or_left_comm

theorem mem_foldr_insert {t : Timer α} {timers : List (Timer α)} :
    t ∈ timers.foldr insertByDeadline [] ↔ t ∈ timers := by
  induction timers with
  | nil => rfl
  | cons first rest ih => rw [List.foldr_cons, mem_insertByDeadline, ih, List.mem_cons]

theorem mem_due {now : Int} {id : Nat} : id ∈ q.due now ↔ ∃ t ∈ q.timers, t.deadline ≤ now ∧ t.id = id := by
  rw [due, List.mem_map]
  simp only [mem_foldr_insert, List.mem_filter, decide_eq_true_eq, and_assoc]

theorem isPending_iff {id : Nat} : q.isPending id = true ↔ ∃ t ∈ q.timers, t.id = id := by
  simp [isPending, find?, List.find?_isSome]

/-- Several timers removed one after the other. -/
theorem removeAll_eq {κ : Type} (keyed : List (κ × Nat)) (q : TimerQueue α) :
    keyed.foldl (fun q entry => q.remove entry.2) q =
      { q with timers := q.timers.filter fun t => !keyed.any (·.2 == t.id) } := by
  induction keyed generalizing q with
  | nil => simp
  | cons entry keyed ih =>
    rw [List.foldl_cons, ih, remove]
    simp only [List.filter_filter, mk.injEq, and_true]
    apply List.filter_congr
    intro t member
    rw [List.any_cons, Bool.not_or, Bool.and_comm, bne, BEq.comm]

end TimerQueue

namespace Scheduler

variable {κ α : Type} {s : Scheduler κ α}

/-- Every timer has a number of its own, given out before, and its deadline is no further away than the
delay. -/
structure Timely (s : Scheduler κ α) : Prop where
  distinct : (s.queue.timers.map (·.id)).Nodup
  used : ∀ t ∈ s.queue.timers, t.id < s.queue.nextId
  soon : ∀ t ∈ s.queue.timers, t.deadline ≤ s.now + s.delay

/-- The step from `s` to `s'` gives up timers at most. -/
structure Loses (s s' : Scheduler κ α) : Prop where
  timers : s'.queue.timers.Sublist s.queue.timers
  nextId : s'.queue.nextId = s.queue.nextId
  now : s'.now = s.now
  delay : s'.delay = s.delay

theorem Loses.used {s' : Scheduler κ α} (loses : s.Loses s') (used : ∀ t ∈ s.queue.timers, t.id < s.queue.nextId) :
    ∀ t ∈ s'.queue.timers, t.id < s'.queue.nextId := by
  intro t member
  rw [loses.nextId]
  exact used t (loses.timers.subset member)

theorem Loses.timely {s' : Scheduler κ α} (loses : s.Loses s') (timely : s.Timely) : s'.Timely where
  distinct := timely.distinct.sublist (loses.timers.map _)
  used := loses.used timely.used
  soon t member := by
    rw [loses.now, loses.delay]
    exact timely.soon t (loses.timers.subset member)

theorem timely_new (now delay : Int) : ({ now, delay } : Scheduler κ α).Timely where
  distinct := List.nodup_nil
  used _ member := by cases member
  soon _ member := by cases member

theorem Timely.wait (timely : s.Timely) (elapsed : Nat) : Timely { s with now := s.now + elapsed } where
  distinct := timely.distinct
  used := timely.used
  soon t member := by
    have soon := timely.soon t member
    show t.deadline ≤ s.now + elapsed + s.delay
    omega

variable [DecidableEq κ]

theorem cancelKey_loses (s : Scheduler κ α) (key : κ) : s.Loses (s.cancelKey key).2 := by
  unfold cancelKey
  split
  · exact ⟨List.Sublist.refl _, rfl, rfl, rfl⟩
  · exact ⟨List.filter_sublist, rfl, rfl, rfl⟩

/-- A trigger gives up timers at most, and adds one that waits for the whole delay. -/
theorem trigger_timers (s : Scheduler κ α) (key : κ) (action : α) :
    (s.trigger key action).queue.timers =
      (s.cancelKey key).2.queue.timers ++ [⟨s.queue.nextId, s.now + s.delay, ⟨some key, action⟩⟩] := by
  have loses := cancelKey_loses s key
  rw [← loses.nextId, ← loses.now, ← loses.delay]
  rfl

theorem trigger_clock (s : Scheduler κ α) (key : κ) (action : α) :
    (s.trigger key action).now = s.now ∧ (s.trigger key action).delay = s.delay := by
  have loses := cancelKey_loses s key
  exact ⟨loses.now, loses.delay⟩

theorem used_trigger (used : ∀ t ∈ s.queue.timers, t.id < s.queue.nextId) (key : κ) (action : α) :
    ∀ t ∈ (s.trigger key action).queue.timers, t.id < (s.trigger key action).queue.nextId := by
  have loses := cancelKey_loses s key
  have nextId : (s.trigger key action).queue.nextId = s.queue.nextId + 1 := congrArg (· + 1) loses.nextId
  intro t member
  rw [trigger_timers, List.mem_append, List.mem_singleton] at member
  rw [nextId]
  rcases member with old | rfl
  · exact Nat.lt_succ_of_lt (used t (loses.timers.subset old))
  · exact Nat.lt_succ_self _

theorem Timely.trigger (timely : s.Timely) (key : κ) (action : α) : (s.trigger key action).Timely := by
  have loses := cancelKey_loses s key
  have kept := loses.timely timely
  have clock := trigger_clock s key action
  refine ⟨?_, used_trigger timely.used key action, ?_⟩
  · rw [trigger_timers, List.map_append, List.nodup_append]
    refine ⟨kept.distinct, List.nodup_singleton _, ?_⟩
    intro id listed fresh isFresh
    obtain ⟨t, member, rfl⟩ := List.mem_map.mp listed
    rw [List.mem_singleton.mp isFresh]
    exact Nat.ne_of_lt (timely.used t (loses.timers.subset member))
  · intro t member
    rw [trigger_timers, List.mem_append, List.mem_singleton] at member
    rw [clock.1, clock.2]
    rcases member with old | rfl
    · exact timely.soon t (loses.timers.subset old)
    · exact Int.le_refl _

theorem take_none {id : Nat} (missing : s.take id = none) : ∀ t ∈ s.queue.timers, t.id ≠ id := by
  have absent := List.find?_eq_none.mp (Option.map_eq_none_iff.mp missing)
  intro t member same
  exact absent t member (beq_iff_eq.mpr same)

theorem take_of_absent {id : Nat} (absent : ∀ t ∈ s.queue.timers, t.id ≠ id) : s.take id = none := by
  refine Option.map_eq_none_iff.mpr (List.find?_eq_none.mpr fun t member number => ?_)
  exact absent t member (beq_iff_eq.mp number)

theorem take_some {id : Nat} {action : α} {s' : Scheduler κ α} (taken : s.take id = some (action, s')) :
    (∃ t ∈ s.queue.timers, t.id = id ∧ t.action.action = action) ∧
      s'.queue.timers = s.queue.timers.filter (·.id != id) ∧ s.Loses s' := by
  obtain ⟨t, found, same⟩ := Option.map_eq_some_iff.mp taken
  obtain ⟨rfl, rfl⟩ := Prod.mk.inj same
  have number : t.id = id := by simpa using List.find?_some found
  exact ⟨⟨t, List.mem_of_find?_eq_some found, number, rfl⟩, rfl, List.filter_sublist, rfl, rfl, rfl⟩

theorem Timely.take_of_mem (timely : s.Timely) {t : Timer (Job κ α)} (member : t ∈ s.queue.timers) :
    ∃ s', s.take t.id = some (t.action.action, s') := by
  cases taken : s.take t.id with
  | none => exact absurd rfl (take_none taken t member)
  | some pair =>
    obtain ⟨⟨other, listed, number, action⟩, _⟩ := take_some taken
    have same : other = t := List.inj_on_of_nodup_map timely.distinct listed member number
    rw [same] at action
    exact ⟨pair.2, by rw [action]⟩

end Scheduler
end QueryService
