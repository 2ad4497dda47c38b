import QueryService.Proofs.Timer.History
import QueryService.Proofs.Timer.Waiting

/-!
# Every timer has one fate

Each event says what it makes of the queue (`Event.Makes`): it takes out the timers that it fires or cancels, and
adds the one that it schedules under a new number. So the log accounts for every timer that was ever scheduled
(`Sound`): it waits, or it has fired, or it was cancelled.
-/

namespace QueryService
namespace Scheduler
namespace Running

namespace Event

/-- The event makes of the queue `q` the queue `q'`. -/
structure Makes (e : Event) (q q' : TimerQueue (Job Bytes Callback)) : Prop where
  timers : q'.timers = q.timers.filter (fun t => !(e.cancels t.id || e.fires t.id)) ++ e.scheduled?.toList
  nextId : q'.nextId = q.nextId + e.scheduled?.toList.length
  number : ∀ t, e.scheduled? = some t → t.id = q.nextId
  waiting : ∀ id, (e.cancels id || e.fires id) = true → q.isPending id = true

variable {e : Event} {q q' : TimerQueue (Job Bytes Callback)}

/-- An event that schedules, cancels and fires nothing leaves the queue as it is. -/
theorem makes_self (idle : e.scheduled? = none) (keeps : ∀ id, e.cancels id = false) (quiet : ∀ id, e.fires id = false) :
    e.Makes q q := by
  refine ⟨?_, ?_, ?_, ?_⟩ <;> simp [idle, keeps, quiet]

end Event

theorem filter_remove {q : TimerQueue (Job Bytes Callback)} (id : Nat) {removed : Nat → Bool}
    (same : ∀ other, removed other = (id == other && q.isPending id)) :
    (q.remove id).timers = q.timers.filter (fun t => !removed t.id) := by
  apply List.filter_congr
  intro t member
  rw [same]
  by_cases own : id = t.id
  · have waits : q.isPending id = true := TimerQueue.isPending_iff.mpr ⟨t, member, own.symm⟩
    simp [own] at waits ⊢
    exact waits
  · have differs : (id == t.id) = false := beq_false_of_ne own
    rw [differs, Bool.false_and, Bool.not_false, bne_iff_ne]
    exact Ne.symm own

/-- A cancel for a key removes the timer that is known for the key, if that one still waits. -/
theorem cancelKey_removes (s : Scheduler Bytes Callback) (key : Bytes) :
    (s.cancelKey key).2.queue.timers =
        s.queue.timers.filter (fun t => !(s.timerOf? key == some t.id && (s.cancelKey key).1)) ∧
      ∀ id, (s.timerOf? key == some id && (s.cancelKey key).1) = true → s.queue.isPending id = true := by
  unfold cancelKey
  cases known : s.timerOf? key with
  | none => simp
  | some id =>
    have answer (other : Nat) : (some id == some other && s.queue.isPending id) = (id == other && s.queue.isPending id) := by
      simp
    refine ⟨filter_remove id answer, ?_⟩
    intro other found
    obtain ⟨same, waits⟩ := Bool.and_eq_true_iff.mp found
    obtain rfl : id = other := by simpa using same
    exact waits

theorem perform_makes (r : Running) (c : Command) :
    (Event.performed r.scheduler c).Makes r.scheduler.queue (r.perform c).1.scheduler.queue := by
  cases c with
  | schedule delay label body =>
    refine ⟨?_, rfl, ?_, ?_⟩
    · simp [Event.cancels, Event.fires, Event.scheduled?, perform, Scheduler.schedule, TimerQueue.schedule]
    · rintro t ⟨⟩
      rfl
    · simp [Event.cancels, Event.fires]
  | cancel id =>
    refine ⟨?_, rfl, ?_, ?_⟩
    · simp only [Event.scheduled?, Option.toList_none, List.append_nil, Event.fires, Bool.or_false]
      exact filter_remove id fun other => rfl
    · rintro t ⟨⟩
    · intro other found
      simp [Event.cancels, Event.fires, Scheduler.cancel, TimerQueue.cancel] at found
      obtain ⟨rfl, waits⟩ := found
      exact waits
  | trigger key label body =>
    obtain ⟨timers, waiting⟩ := cancelKey_removes r.scheduler key
    have loses := cancelKey_loses r.scheduler key
    refine ⟨?_, ?_, ?_, ?_⟩
    · show (r.scheduler.trigger key ⟨label, body⟩).queue.timers = _
      rw [trigger_timers, timers]
      simp [Event.cancels, Event.fires, Event.scheduled?]
    · show (r.scheduler.cancelKey key).2.queue.nextId + 1 = _
      rw [loses.nextId]
      rfl
    · rintro t ⟨⟩
      rfl
    · simpa [Event.cancels, Event.fires] using waiting
  | cancelKey key =>
    obtain ⟨timers, waiting⟩ := cancelKey_removes r.scheduler key
    have loses := cancelKey_loses r.scheduler key
    refine ⟨?_, ?_, ?_, ?_⟩
    · show (r.scheduler.cancelKey key).2.queue.timers = _
      rw [timers]
      simp [Event.cancels, Event.fires, Event.scheduled?]
    · exact loses.nextId
    · rintro t ⟨⟩
    · simpa [Event.cancels, Event.fires] using waiting
  | cancelKeys =>
    refine ⟨?_, ?_, ?_, ?_⟩
    · show (r.scheduler.cancelKeys).queue.timers = _
      rw [cancelKeys, TimerQueue.removeAll_eq]
      simp only [Event.scheduled?, Option.toList_none, List.append_nil, Event.fires, Bool.or_false, Event.cancels]
      apply List.filter_congr
      intro t member
      rw [TimerQueue.isPending_iff.mpr ⟨t, member, rfl⟩, Bool.and_true]
    · show (r.scheduler.cancelKeys).queue.nextId = _
      rw [cancelKeys, TimerQueue.removeAll_eq]
      rfl
    · rintro t ⟨⟩
    · intro id found
      simp only [Event.cancels, Event.fires, Bool.or_false] at found
      exact (Bool.and_eq_true_iff.mp found).2
  | setClock _ | isPending _ | run | isKeyPending _ | setDelay _ =>
    exact Event.makes_self rfl (fun _ => rfl) fun _ => rfl

variable {r r' : Running} {frame : Frame} {outer frames : List Frame} {e : Event} {log : List Event}

theorem Step.makes (step : Step r outer frame (some e) r' frames) :
    e.Makes r.scheduler.queue r'.scheduler.queue := by
  cases step with
  | began rest => exact Event.makes_self rfl (fun _ => rfl) fun _ => rfl
  | performed c rest => exact perform_makes r c
  | ended count => exact Event.makes_self rfl (fun _ => rfl) fun _ => rfl
  | fired t due count scheduler waits taken =>
    obtain ⟨_, timers, loses⟩ := take_some taken
    refine ⟨?_, loses.nextId, nofun, ?_⟩
    · simp only [timers, Event.cancels, Event.fires, Event.scheduled?, Option.toList_none, List.append_nil,
        Bool.false_or]
      apply List.filter_congr
      intro other _
      rw [bne, BEq.comm]
    · intro id found
      obtain rfl : t.id = id := by simpa [Event.cancels, Event.fires] using found
      exact TimerQueue.isPending_iff.mpr ⟨t, waits, rfl⟩

theorem Step.silent (step : Step r outer frame none r' frames) : r'.scheduler = r.scheduler := by
  cases step <;> rfl

/-! ### Numbers and fates -/

def scheduled (log : List Event) : List (Timer (Job Bytes Callback)) := log.filterMap Event.scheduled?

/-- What the log says of the timers of a queue: which were scheduled, and what became of them. -/
structure Sound (log : List Event) (q : TimerQueue (Job Bytes Callback)) : Prop where
  positive : 0 < q.nextId
  numbers : (scheduled log).map (·.id) = List.range' 1 (q.nextId - 1)
  distinct : (q.timers.map (·.id)).Nodup
  known : ∀ t ∈ q.timers, t ∈ scheduled log
  balance : ∀ id, q.timers.countP (·.id == id) + log.countP (Event.fires id) + log.countP (Event.cancels id) =
    (scheduled log).countP (·.id == id)

theorem scheduled_append (log : List Event) (e : Event) : scheduled (log ++ [e]) = scheduled log ++ e.scheduled?.toList := by
  rw [scheduled, List.filterMap_append, List.filterMap_cons, List.filterMap_nil]
  cases e.scheduled? <;> rfl

theorem scheduled_split (before rest : List Event) (e : Event) :
    scheduled (before ++ e :: rest) = scheduled before ++ (e.scheduled?.toList ++ scheduled rest) := by
  rw [← List.singleton_append, ← List.append_assoc, scheduled, List.filterMap_append, ← scheduled, ← scheduled,
    scheduled_append, List.append_assoc]

section Sound

variable {q : TimerQueue (Job Bytes Callback)} {t other : Timer (Job Bytes Callback)}

theorem Sound.used (sound : Sound log q) (member : t ∈ scheduled log) : 0 < t.id ∧ t.id < q.nextId := by
  have number : t.id ∈ (scheduled log).map (·.id) := List.mem_map_of_mem member
  have positive := sound.positive
  rw [sound.numbers, List.mem_range'_1] at number
  omega

theorem Sound.below (sound : Sound log q) (member : t ∈ q.timers) : t.id < q.nextId :=
  (sound.used (sound.known t member)).2

theorem Sound.nodup (sound : Sound log q) : ((scheduled log).map (·.id)).Nodup := by
  rw [sound.numbers]
  exact List.nodup_range'

theorem Sound.unique (sound : Sound log q) (member : t ∈ scheduled log) (listed : other ∈ scheduled log)
    (number : other.id = t.id) : other = t :=
  List.inj_on_of_nodup_map sound.nodup listed member number

/-- A timer that was scheduled waits, has fired or was cancelled. -/
theorem Sound.fate (sound : Sound log q) (member : t ∈ scheduled log) :
    q.timers.countP (·.id == t.id) + log.countP (Event.fires t.id) + log.countP (Event.cancels t.id) = 1 := by
  have once := List.count_eq_one_of_mem sound.nodup (List.mem_map_of_mem member)
  rw [List.count, List.countP_map] at once
  exact (sound.balance t.id).trans once

end Sound

theorem Event.cancels_or_fires (e : Event) (id : Nat) : e.cancels id = false ∨ e.fires id = false := by
  cases e <;> simp [cancels, fires]

theorem countP_of_waiting {q : TimerQueue (Job Bytes Callback)} {id : Nat} (distinct : (q.timers.map (·.id)).Nodup)
    (waits : q.isPending id = true) : q.timers.countP (·.id == id) = 1 := by
  obtain ⟨t, member, rfl⟩ := TimerQueue.isPending_iff.mp waits
  have once := List.count_eq_one_of_mem distinct (List.mem_map_of_mem member)
  rwa [List.count, List.countP_map] at once

/-- A timer that an event takes out of the queue has fired or was cancelled by it. -/
theorem Event.Makes.balance {q q' : TimerQueue (Job Bytes Callback)} (makes : e.Makes q q')
    (distinct : (q.timers.map (·.id)).Nodup) (id : Nat) :
    q'.timers.countP (·.id == id) + (if e.fires id then 1 else 0) + (if e.cancels id then 1 else 0) =
      q.timers.countP (·.id == id) + e.scheduled?.toList.countP (·.id == id) := by
  rw [makes.timers, List.countP_append, List.countP_filter]
  by_cases gone : (e.cancels id || e.fires id) = true
  · have none : q.timers.countP (fun t => t.id == id && !(e.cancels t.id || e.fires t.id)) = 0 := by
      rw [List.countP_eq_zero]
      intro t member
      simp only [Bool.and_eq_true, beq_iff_eq, not_and]
      rintro rfl
      simp [gone]
    have one := countP_of_waiting distinct (makes.waiting id gone)
    rw [none, one]
    rcases e.cancels_or_fires id with stays | stays
    · have fires : e.fires id = true := by simpa [stays] using gone
      simp only [fires, stays, if_true, Bool.false_eq_true, if_false]
      omega
    · have cancels : e.cancels id = true := by simpa [stays] using gone
      simp only [cancels, stays, if_true, Bool.false_eq_true, if_false]
      omega
  · have kept : q.timers.countP (fun t => t.id == id && !(e.cancels t.id || e.fires t.id)) =
        q.timers.countP (·.id == id) := by
      apply List.countP_congr
      intro t member
      simp only [Bool.and_eq_true, beq_iff_eq, and_iff_left_iff_imp]
      rintro rfl
      simpa using gone
    rw [kept]
    simp only [Bool.not_eq_true, Bool.or_eq_false_iff] at gone
    simp [gone]

theorem sound_start (delay : Int) (commands : List Command) :
    Sound (Moment.start delay commands).log (Moment.start delay commands).running.scheduler.queue where
  positive := Nat.one_pos
  numbers := rfl
  distinct := List.nodup_nil
  known _ member := by cases member
  balance _ := rfl

theorem Sound.step {q q' : TimerQueue (Job Bytes Callback)} (sound : Sound log q) (makes : e.Makes q q') :
    Sound (log ++ [e]) q' := by
  refine ⟨?_, ?_, ?_, ?_, ?_⟩
  · have := sound.positive
    rw [makes.nextId]
    omega
  · have positive := sound.positive
    rw [scheduled_append, List.map_append, sound.numbers, makes.nextId]
    cases new : e.scheduled? with
    | none => simp
    | some t =>
      have number := makes.number t new
      obtain ⟨k, next⟩ : ∃ k, q.nextId = k + 1 := ⟨q.nextId - 1, by omega⟩
      simp [number, next, List.range'_1_concat, Nat.add_comm]
  · rw [makes.timers, List.map_append, List.nodup_append]
    refine ⟨?_, ?_, ?_⟩
    · exact sound.distinct.sublist (List.filter_sublist.map _)
    · cases e.scheduled? <;> simp
    · intro id kept other new same
      obtain ⟨t, member, rfl⟩ := List.mem_map.mp kept
      obtain ⟨t', fresh, rfl⟩ := List.mem_map.mp new
      have below := sound.used (sound.known t (List.mem_of_mem_filter member))
      have number := makes.number t' (Option.mem_toList.mp fresh)
      omega
  · intro t member
    rw [makes.timers, List.mem_append] at member
    rw [scheduled_append, List.mem_append]
    apply member.imp_left
    intro kept
    exact sound.known t (List.mem_of_mem_filter kept)
  · intro id
    have balance := sound.balance id
    have moved := makes.balance sound.distinct id
    rw [scheduled_append, List.countP_append, List.countP_append, List.countP_append, List.countP_singleton,
      List.countP_singleton]
    omega

end Running
end Scheduler
end QueryService
