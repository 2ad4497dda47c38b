import QueryService.Proofs.Timer.Keys
import QueryService.Proofs.Timer.Reentrancy

/-!
# The quiet period of a key

Only the latest trigger of a key can wait. Each event says what it makes of the keys (`Event.Keeps`), and with the
account of the timers this decides which trigger a key waits for (`Tracked`).
-/

namespace QueryService
namespace Scheduler
namespace Running

open TimerQueue

/-- Whether the event starts the quiet period of a key anew or gives it up. -/
def Event.renews (key : Bytes) : Event → Bool
  | .performed _ (.trigger other _ _) | .performed _ (.cancelKey other) => other == key
  | .performed _ .cancelKeys => true
  | _ => false

def Event.triggers (key : Bytes) (e : Event) (id : Nat) : Prop :=
  ∃ t, e.scheduled? = some t ∧ t.action.key = some key ∧ t.id = id

theorem Event.not_triggers {e : Event} (idle : e.scheduled? = none) (key : Bytes) (id : Nat) : ¬ e.triggers key id := by
  rintro ⟨t, new, _⟩
  rw [idle] at new
  cases new

/-- The timer of the last trigger of a key. -/
def latest? (log : List Event) (key : Bytes) : Option (Timer (Job Bytes Callback)) :=
  ((scheduled log).filter (·.action.key == some key)).getLast?

/-- The event leaves the keys in order as it goes from `s` to `s'`. -/
structure Event.Keeps (e : Event) (s s' : Scheduler Bytes Callback) : Prop where
  exclusive : s'.Exclusive
  keys : s'.keys.Nodup
  known : ∀ key id, s'.timerOf? key = some id →
    e.triggers key id ∨ s.timerOf? key = some id ∧ ∀ other, ¬ e.triggers key other
  cleared : ∀ key, e.renews key = true → ∀ t ∈ s'.queue.timers, t.action.key = some key → s.queue.nextId ≤ t.id

variable {log : List Event} {e : Event} {s s' : Scheduler Bytes Callback} {key : Bytes} {r r' : Running} {frame : Frame}
  {outer frames : List Frame}

/-- An event that triggers and renews nothing. -/
theorem Event.keeps_of (idle : ∀ key id, ¬ e.triggers key id) (calm : ∀ key, e.renews key = false)
    (exclusive : s'.Exclusive) (distinct : s.keys.Nodup) (keyed : s'.keyed.Sublist s.keyed)
    (known : ∀ key id, s'.timerOf? key = some id → s.timerOf? key = some id) : e.Keeps s s' where
  exclusive := exclusive
  keys := distinct.sublist (keyed.map _)
  known key id found := Or.inr ⟨known key id found, idle key⟩
  cleared key renews := by
    rw [calm] at renews
    cases renews

theorem perform_keeps (r : Running) (exclusive : r.scheduler.Exclusive) (distinct : r.scheduler.keys.Nodup)
    (used : ∀ t ∈ r.scheduler.queue.timers, t.id < r.scheduler.queue.nextId) (c : Command) :
    (Event.performed r.scheduler c).Keeps r.scheduler (r.perform c).1.scheduler := by
  cases c with
  | schedule delay label body =>
    refine Event.keeps_of ?_ (fun _ => rfl) (exclusive.schedule delay ⟨label, body⟩) distinct (List.Sublist.refl _)
      fun _ _ => id
    rintro key id ⟨t, new, own, _⟩
    cases new
    cases own
  | cancel id =>
    have kept : (r.scheduler.cancel id).2.Exclusive :=
      exclusive.subset (List.filter_subset_self _) (Nat.le_refl _) rfl
    exact Event.keeps_of (Event.not_triggers rfl) (fun _ => rfl) kept distinct (List.Sublist.refl _)
      fun _ _ found => found
  | trigger key label body =>
    refine ⟨exclusive.trigger used key _, nodup_keys_trigger distinct key _, ?_, ?_⟩
    · intro other id found
      have found : (r.scheduler.trigger key ⟨label, body⟩).timerOf? other = some id := found
      rw [timerOf?_trigger] at found
      by_cases same : other = key
      · rw [if_pos same] at found
        exact Or.inl ⟨_, rfl, congrArg some same.symm, Option.some.inj found⟩
      · rw [if_neg same] at found
        refine Or.inr ⟨found, ?_⟩
        rintro _ ⟨t, new, own, _⟩
        cases new
        exact same (Option.some.inj own).symm
    · intro other renews t member own
      obtain rfl : key = other := by simpa [Event.renews] using renews
      have member : t ∈ (r.scheduler.trigger key ⟨label, body⟩).queue.timers := member
      rw [trigger_timers, List.mem_append, List.mem_singleton, exclusive.mem_cancelKey] at member
      rcases member with ⟨_, differs⟩ | rfl
      · exact absurd own differs
      · exact Nat.le_refl _
  | cancelKey key =>
    refine ⟨exclusive.cancelKey key, distinct.sublist (keys_cancelKey r.scheduler key), ?_, ?_⟩
    · intro other id found
      have found : (r.scheduler.cancelKey key).2.timerOf? other = some id := found
      rw [timerOf?_cancelKey] at found
      refine Or.inr ⟨?_, ?_⟩
      · by_cases same : other = key
        · rw [if_pos same] at found
          cases found
        · rwa [if_neg same] at found
      · exact Event.not_triggers rfl other
    · intro other renews t member own
      obtain rfl : key = other := by simpa [Event.renews] using renews
      exact absurd own (exclusive.mem_cancelKey.mp member).2
  | cancelKeys =>
    refine ⟨exclusive.cancelKeys, List.nodup_nil, ?_, ?_⟩
    · intro other id found
      cases found
    · intro other _ t member own
      rw [exclusive.mem_cancelKeys member] at own
      cases own
  | setClock _ | isPending _ | run | isKeyPending _ | setDelay _ =>
    exact Event.keeps_of (Event.not_triggers rfl) (fun _ => rfl) ⟨exclusive.held, exclusive.used⟩ distinct
      (List.Sublist.refl _) fun _ _ => id

theorem Step.keeps (step : Step r outer frame (some e) r' frames) (exclusive : r.scheduler.Exclusive)
    (distinct : r.scheduler.keys.Nodup) (used : ∀ t ∈ r.scheduler.queue.timers, t.id < r.scheduler.queue.nextId) :
    e.Keeps r.scheduler r'.scheduler := by
  cases step with
  | began rest =>
    exact Event.keeps_of (Event.not_triggers rfl) (fun _ => rfl) exclusive distinct (List.Sublist.refl _) fun _ _ => id
  | performed c rest => exact perform_keeps r exclusive distinct used c
  | ended count =>
    exact Event.keeps_of (Event.not_triggers rfl) (fun _ => rfl) exclusive distinct (List.Sublist.refl _) fun _ _ => id
  | fired t due count scheduler waits taken =>
    exact Event.keeps_of (Event.not_triggers rfl) (fun _ => rfl) (exclusive.take taken) distinct (keyed_take taken)
      fun _ _ => timerOf?_take taken

/-! ### The triggers of a key -/

theorem latest?_of_triggers {id : Nat} (triggers : e.triggers key id) :
    ∃ t, latest? (log ++ [e]) key = some t ∧ t.id = id := by
  obtain ⟨t, new, own, number⟩ := triggers
  refine ⟨t, ?_, number⟩
  rw [latest?, scheduled_append, new, Option.toList_some, List.filter_append,
    List.filter_singleton, beq_iff_eq.mpr own, cond_true, List.getLast?_append, List.getLast?_singleton, Option.some_or]

theorem latest?_of_not_triggers (idle : ∀ id, ¬ e.triggers key id) : latest? (log ++ [e]) key = latest? log key := by
  rw [latest?, scheduled_append, List.filter_append]
  cases new : e.scheduled? with
  | none => simp [latest?]
  | some t =>
    have differs : (t.action.key == some key) = false := by
      rw [beq_eq_false_iff_ne]
      intro own
      exact idle t.id ⟨t, new, own, rfl⟩
    simp [latest?, differs]

theorem mem_of_latest? {t : Timer (Job Bytes Callback)} (latest : latest? log key = some t) :
    t ∈ scheduled log ∧ t.action.key = some key := by
  obtain ⟨listed, own⟩ := List.mem_filter.mp (List.mem_of_getLast? latest)
  exact ⟨listed, beq_iff_eq.mp own⟩

/-- What the log says of the keys: the remembered timers are those of the latest triggers, and what was triggered
before a renewal is gone for good. -/
structure Tracked (log : List Event) (s : Scheduler Bytes Callback) : Prop where
  exclusive : s.Exclusive
  keys : s.keys.Nodup
  latest : ∀ key id, s.timerOf? key = some id → ∃ t, latest? log key = some t ∧ t.id = id
  renewed : ∀ before e rest, log = before ++ e :: rest → ∀ key, e.renews key = true →
    ∀ t ∈ scheduled before, t.action.key = some key →
      s.queue.isPending t.id = false ∧ ∀ f ∈ rest, f.fires t.id = false

theorem Tracked.step (tracked : Tracked log s) (sound : Sound log s.queue) (keeps : e.Keeps s s')
    (makes : e.Makes s.queue s'.queue) : Tracked (log ++ [e]) s' := by
  refine ⟨keeps.exclusive, keeps.keys, ?_, ?_⟩
  · intro key id found
    rcases keeps.known key id found with triggers | ⟨old, idle⟩
    · exact latest?_of_triggers triggers
    · rw [latest?_of_not_triggers idle]
      exact tracked.latest key id old
  · intro before other rest split key renews t member own
    rcases split_concat split with ⟨rfl, rfl, rfl⟩ | ⟨between, rfl, rfl⟩
    · refine ⟨?_, nofun⟩
      rw [Bool.eq_false_iff]
      intro waits
      obtain ⟨found, listed, number⟩ := isPending_iff.mp waits
      have after := sound.step makes
      have there : t ∈ scheduled (before ++ [other]) := by
        rw [scheduled_append]
        exact List.mem_append_left _ member
      obtain rfl := after.unique there (after.known found listed) number
      have new := keeps.cleared key renews found listed own
      have old := (sound.used member).2
      omega
    · obtain ⟨gone, silent⟩ := tracked.renewed before other between rfl key renews t member own
      have there : t ∈ scheduled (before ++ other :: between) := by
        rw [scheduled_split]
        exact List.mem_append_left _ member
      refine ⟨makes.gone (sound.used there).2 gone, ?_⟩
      intro f listed
      rcases List.mem_append.mp listed with old | new
      · exact silent f old
      · obtain rfl := List.mem_singleton.mp new
        rw [Bool.eq_false_iff]
        intro fires
        rw [makes.waiting t.id (by rw [fires, Bool.or_true])] at gone
        cases gone

theorem Tracked.next {m : Moment} (tracked : Tracked m.log m.running.scheduler)
    (sound : Sound m.log m.running.scheduler.queue) : Tracked m.next.log m.next.running.scheduler := by
  rcases m.next_cases with same | ⟨frame, outer, event, _, step, log⟩
  · rw [same]
    exact tracked
  · rw [log]
    cases event with
    | none =>
      rw [step.silent, Option.toList_none, List.append_nil]
      exact tracked
    | some e =>
      have keeps := step.keeps tracked.exclusive tracked.keys fun t member => sound.below member
      exact tracked.step sound keeps step.makes

theorem tracked_after (delay : Int) (commands : List Command) (n : Nat) :
    Tracked ((Moment.start delay commands).after n).log
      ((Moment.start delay commands).after n).running.scheduler := by
  induction n with
  | zero =>
    refine ⟨exclusive_new 0 delay, List.nodup_nil, nofun, ?_⟩
    intro before e rest split
    have empty := congrArg List.length split
    simp [Moment.start, Moment.after] at empty
  | succ n ih => exact ih.next (lawful_after delay commands n).sound

theorem Tracked.single (tracked : Tracked log s) (sound : Sound log s.queue) (key : Bytes) :
    s.queue.timers.countP (·.action.key == some key) ≤ 1 := by
  by_cases waits : ∃ t ∈ s.queue.timers, t.action.key = some key
  · obtain ⟨t, member, own⟩ := waits
    have known := (tracked.exclusive.held t member key).mp own
    have once := List.nodup_iff_count_le_one.mp sound.distinct t.id
    rw [List.count, List.countP_map] at once
    refine Nat.le_trans (List.countP_mono_left ?_) once
    intro other listed shared
    have same := (tracked.exclusive.held other listed key).mp (beq_iff_eq.mp shared)
    rw [known] at same
    exact beq_iff_eq.mpr (Option.some.inj same).symm
  · have none : s.queue.timers.countP (·.action.key == some key) = 0 := by
      rw [List.countP_eq_zero]
      intro t member own
      exact waits ⟨t, member, beq_iff_eq.mp own⟩
    omega

/-- A key waits for its latest trigger, as long as that one has neither fired nor been cancelled. -/
theorem Tracked.isKeyPending_iff (tracked : Tracked log s) (sound : Sound log s.queue) (key : Bytes) :
    s.isKeyPending key = true ↔ ∃ t, latest? log key = some t ∧ log.countP (Event.fires t.id) = 0 ∧
      log.countP (Event.cancels t.id) = 0 := by
  rw [isKeyPending, Option.any_eq_true]
  refine ⟨?_, ?_⟩
  · rintro ⟨id, known, waits⟩
    obtain ⟨t, latest, rfl⟩ := tracked.latest key id known
    have fate := sound.fate (mem_of_latest? latest).1
    have waiting := countP_of_waiting sound.distinct waits
    exact ⟨t, latest, by omega, by omega⟩
  · rintro ⟨t, latest, unfired, kept⟩
    obtain ⟨member, own⟩ := mem_of_latest? latest
    have fate := sound.fate member
    have waiting : 0 < s.queue.timers.countP (·.id == t.id) := by omega
    obtain ⟨other, listed, number⟩ := List.countP_pos_iff.mp waiting
    obtain rfl := sound.unique member (sound.known other listed) (beq_iff_eq.mp number)
    exact ⟨other.id, (tracked.exclusive.held other listed key).mp own, isPending_iff.mpr ⟨other, listed, rfl⟩⟩

/-- The keys that wait, each once. -/
theorem Tracked.pendingKeys_eq (tracked : Tracked log s) :
    ∃ keys : List Bytes, keys.Nodup ∧ (∀ key, key ∈ keys ↔ s.isKeyPending key = true) ∧
      s.pendingKeys = keys.length := by
  refine ⟨(s.keyed.filter fun entry => s.queue.isPending entry.2).map (·.1), ?_, ?_, ?_⟩
  · exact tracked.keys.sublist (List.filter_sublist.map _)
  · intro key
    rw [isKeyPending, Option.any_eq_true, List.mem_map]
    refine ⟨?_, ?_⟩
    · rintro ⟨entry, listed, rfl⟩
      obtain ⟨member, waits⟩ := List.mem_filter.mp listed
      exact ⟨entry.2, timerOf?_of_mem tracked.keys member, waits⟩
    · rintro ⟨id, known, waits⟩
      exact ⟨(key, id), List.mem_filter.mpr ⟨mem_of_lookup known, waits⟩, rfl⟩
  · rw [pendingKeys, List.countP_eq_length_filter, List.length_map]

theorem Consistent.fired (consistent : Consistent log) (sound : Sound log s.queue) {t : Timer (Job Bytes Callback)}
    (member : t ∈ scheduled log) {before rest : List Event} {depth : Nat} {other : Timer (Job Bytes Callback)}
    (split : log = before ++ .fired depth other :: rest) (number : other.id = t.id) :
    other = t ∧ ∃ earlier s' during, Underway before depth earlier s' during ∧ t.deadline ≤ s'.now := by
  obtain ⟨earlier, s', during, fires⟩ := consistent before (.fired depth other) rest split
  have listed : other ∈ scheduled log := by
    rw [split, fires.underway.begun, List.append_assoc, List.cons_append, scheduled_split]
    exact List.mem_append_left _ fires.known
  obtain rfl := sound.unique member listed number
  exact ⟨rfl, earlier, s', during, fires.underway, fires.due⟩

/-- Whatever the callbacks do: a key has one timer at most, which is that of its latest trigger; a trigger that is
followed by another or by a cancel before it fires never does, and the others fire once at most, in a run that began
when their delay was over. -/
theorem triggers_debounced (delay : Int) (commands : List Command) :
    (∃ n, ((Moment.start delay commands).after n).frames = [] ∧
      ((Moment.start delay commands).after n).running.scheduler =
        (session { scheduler := { delay } } commands).scheduler) ∧
    ∀ n m, (Moment.start delay commands).after n = m →
      (∀ key, m.running.scheduler.queue.timers.countP (·.action.key == some key) ≤ 1) ∧
      (∀ before e rest key, m.log = before ++ e :: rest → e.renews key = true →
        ∀ t ∈ scheduled before, t.action.key = some key → ∀ f ∈ rest, f.fires t.id = false) ∧
      (∀ before s key label body rest, m.log = before ++ .performed s (.trigger key label body) :: rest →
        m.log.countP (Event.fires s.queue.nextId) ≤ 1 ∧
        ∀ before depth t rest, m.log = before ++ .fired depth t :: rest → t.id = s.queue.nextId →
          t.action = ⟨some key, ⟨label, body⟩⟩ ∧
            ∃ earlier s' during, Underway before depth earlier s' during ∧ s.now + s.delay ≤ s'.now) ∧
      (∀ key, m.running.scheduler.isKeyPending key = true ↔
        ∃ t, latest? m.log key = some t ∧ m.log.countP (Event.fires t.id) = 0 ∧
          m.log.countP (Event.cancels t.id) = 0) ∧
      ∃ keys : List Bytes, keys.Nodup ∧ (∀ key, key ∈ keys ↔ m.running.scheduler.isKeyPending key = true) ∧
        m.running.scheduler.pendingKeys = keys.length := by
  refine ⟨program_finishes delay commands, ?_⟩
  rintro n m rfl
  have lawful := lawful_after delay commands n
  have tracked := tracked_after delay commands n
  refine ⟨tracked.single lawful.sound, ?_, ?_, tracked.isKeyPending_iff lawful.sound, tracked.pendingKeys_eq⟩
  · intro before e rest key split renews t member own
    exact (tracked.renewed before e rest split key renews t member own).2
  · intro before s key label body rest split
    have set : (⟨s.queue.nextId, s.now + s.delay, ⟨some key, ⟨label, body⟩⟩⟩ : Timer (Job Bytes Callback)) ∈
        scheduled ((Moment.start delay commands).after n).log := by
      rw [split, scheduled_split]
      exact List.mem_append_right _ List.mem_cons_self
    have fate := lawful.sound.fate set
    simp only at fate
    refine ⟨by omega, ?_⟩
    intro before depth t rest split number
    obtain ⟨rfl, earlier, s', during, underway, due⟩ := lawful.consistent.fired lawful.sound set split number
    exact ⟨rfl, earlier, s', during, underway, due⟩

/-- The callback of a key triggers the key again and cancels another, which is due in the same run; at last the
timer of the key is cancelled by its number. -/
def retriggered : List Command :=
  [.trigger (ascii "x") none [], .setDelay 5,
    .trigger (ascii "x") none [.trigger (ascii "x") none [], .cancelKey (ascii "y")], .trigger (ascii "y") none [],
    .setClock 7, .run, .cancel 4, .trigger (ascii "y") none []]

theorem retriggered_debounced :
    let m := (Moment.start 10 retriggered).after 15
    m.frames = [] ∧
      (scheduled m.log).map (fun t => (t.id, m.log.countP (Event.fires t.id), m.log.countP (Event.cancels t.id))) =
        [(1, 0, 1), (2, 1, 0), (3, 0, 1), (4, 0, 1), (5, 0, 0)] ∧
      (∀ f ∈ m.log.drop 3, f.fires 1 = false) ∧
      (m.log.countP (Event.fires 2) ≤ 1 ∧
        ∃ earlier s' during, Underway (m.log.take 6) 0 earlier s' during ∧ 0 + 5 ≤ s'.now) ∧
      m.running.scheduler.isKeyPending (ascii "x") = false ∧ m.running.scheduler.isKeyPending (ascii "y") = true := by
  obtain ⟨_, renewed, triggers, _⟩ := (triggers_debounced 10 retriggered).2 15 _ rfl
  refine ⟨rfl, rfl, ?_, ?_, rfl, rfl⟩
  · exact renewed (((Moment.start 10 retriggered).after 15).log.take 2) _ _ (ascii "x") rfl rfl
      ⟨1, 10, ⟨some (ascii "x"), ⟨none, []⟩⟩⟩ List.mem_cons_self rfl
  · obtain ⟨once, fires⟩ := triggers (((Moment.start 10 retriggered).after 15).log.take 2) _ (ascii "x") none _ _ rfl
    exact ⟨once, (fires _ 0 _ (((Moment.start 10 retriggered).after 15).log.drop 7) rfl rfl).2⟩

end Running
end Scheduler
end QueryService
