import QueryService.Proofs.Timer.Waiting

/-!
# One timer for each key

A timer that waits for a key is the one that the scheduler remembers for it (`Exclusive`), so no key has
two. A trigger therefore cancels every timer of its key, and no timer of another key.
-/

namespace QueryService

theorem lookup_filter {κ β : Type} [DecidableEq κ] (entries : List (κ × β)) (p : κ → Bool) (key : κ) :
    (entries.filter fun e => p e.1).lookup key = if p key then entries.lookup key else none := by
  induction entries with
  | nil => simp
  | cons e entries ih =>
    obtain ⟨other, value⟩ := e
    by_cases same : key = other
    · subst same
      by_cases kept : p key = true
      · simp [kept]
      · simp [kept, ih]
    · have differs : (key == other) = false := beq_false_of_ne same
      by_cases kept : p other = true
      · simp [kept, List.lookup_cons, differs, ih]
      · simp [kept, List.lookup_cons, differs, ih]

theorem mem_of_lookup {κ β : Type} [DecidableEq κ] {entries : List (κ × β)} {key : κ} {value : β}
    (found : entries.lookup key = some value) : (key, value) ∈ entries := by
  obtain ⟨before, behind, rfl, _⟩ := List.lookup_eq_some_iff.mp found
  exact List.mem_append_right _ List.mem_cons_self

namespace Scheduler

variable {κ α : Type} [DecidableEq κ] {s s' : Scheduler κ α} {key : κ}

structure Exclusive (s : Scheduler κ α) : Prop where
  held : ∀ t ∈ s.queue.timers, ∀ key, t.action.key = some key ↔ s.timerOf? key = some t.id
  used : ∀ e ∈ s.keyed, e.2 < s.queue.nextId

theorem exclusive_new (now delay : Int) : ({ now, delay } : Scheduler κ α).Exclusive where
  held _ member := by cases member
  used _ member := by cases member

theorem Exclusive.setNow (exclusive : s.Exclusive) (now : Int) : Exclusive { s with now } :=
  ⟨exclusive.held, exclusive.used⟩

/-! ### A trigger -/

theorem Exclusive.cancelKey_timers (exclusive : s.Exclusive) (key : κ) :
    (s.cancelKey key).2.queue.timers = s.queue.timers.filter (fun t => t.action.key ≠ some key) := by
  unfold cancelKey
  cases known : s.timerOf? key with
  | none =>
    have apart : ∀ t ∈ s.queue.timers, t.action.key ≠ some key := by
      intro t member own
      rw [exclusive.held t member key, known] at own
      cases own
    exact (List.filter_eq_self.mpr fun t member => decide_eq_true (apart t member)).symm
  | some id =>
    apply List.filter_congr
    intro t member
    have own := exclusive.held t member key
    rw [known, Option.some_inj] at own
    rw [Bool.eq_iff_iff, bne_iff_ne, decide_eq_true_eq, Ne, Ne, own]
    exact not_congr eq_comm

theorem Exclusive.mem_cancelKey (exclusive : s.Exclusive) {t : Timer (Job κ α)} :
    t ∈ (s.cancelKey key).2.queue.timers ↔ t ∈ s.queue.timers ∧ t.action.key ≠ some key := by
  rw [exclusive.cancelKey_timers, List.mem_filter, decide_eq_true_eq]

theorem timerOf?_cancelKey (s : Scheduler κ α) (key other : κ) :
    (s.cancelKey key).2.timerOf? other = if other = key then none else s.timerOf? other := by
  unfold cancelKey
  cases known : s.timerOf? key with
  | none =>
    show s.timerOf? other = _
    by_cases same : other = key
    · rw [if_pos same, same, known]
    · rw [if_neg same]
  | some id =>
    show (s.keyed.filter fun e => decide (e.1 ≠ key)).lookup other = _
    rw [lookup_filter s.keyed (fun k => decide (k ≠ key)) other]
    by_cases same : other = key
    · simp [same]
    · rw [if_neg same, if_pos (decide_eq_true same)]
      rfl

theorem keyed_cancelKey (s : Scheduler κ α) (key : κ) : (s.cancelKey key).2.keyed ⊆ s.keyed := by
  unfold cancelKey
  split
  · exact List.Subset.refl _
  · exact List.filter_subset_self _

theorem timerOf?_trigger (s : Scheduler κ α) (key other : κ) (action : α) :
    (s.trigger key action).timerOf? other = if other = key then some s.queue.nextId else s.timerOf? other := by
  have added : (s.trigger key action).timerOf? other =
      ((key, (s.cancelKey key).2.queue.nextId) :: (s.cancelKey key).2.keyed).lookup other := rfl
  rw [added, List.lookup_cons, (cancelKey_loses s key).nextId]
  by_cases same : other = key
  · rw [if_pos same, beq_iff_eq.mpr same]
  · rw [if_neg same, beq_false_of_ne same]
    show (s.cancelKey key).2.timerOf? other = _
    rw [timerOf?_cancelKey, if_neg same]

theorem Exclusive.trigger (exclusive : s.Exclusive) (used : ∀ t ∈ s.queue.timers, t.id < s.queue.nextId) (key : κ)
    (action : α) : (s.trigger key action).Exclusive := by
  have nextId : (s.trigger key action).queue.nextId = s.queue.nextId + 1 :=
    congrArg (· + 1) (cancelKey_loses s key).nextId
  refine ⟨?_, ?_⟩
  · intro t member other
    rw [timerOf?_trigger]
    rw [trigger_timers, List.mem_append, List.mem_singleton, exclusive.mem_cancelKey] at member
    rcases member with ⟨old, differs⟩ | rfl
    · by_cases same : other = key
      · rw [if_pos same, same]
        refine iff_of_false differs fun fresh => ?_
        have below := used t old
        rw [Option.some_inj.mp fresh] at below
        exact Nat.lt_irrefl _ below
      · rw [if_neg same]
        exact exclusive.held t old other
    · by_cases same : other = key
      · rw [if_pos same, same]
        exact iff_of_true rfl rfl
      · rw [if_neg same]
        refine iff_of_false (fun own => same (Option.some_inj.mp own).symm) fun found => ?_
        exact Nat.lt_irrefl _ (exclusive.used _ (mem_of_lookup found))
  · intro e member
    rw [nextId]
    rcases List.mem_cons.mp member with rfl | old
    · show (s.cancelKey key).2.queue.nextId < _
      rw [(cancelKey_loses s key).nextId]
      exact Nat.lt_succ_self _
    · exact Nat.lt_succ_of_lt (exclusive.used e (keyed_cancelKey s key old))

/-! ### Firing -/

theorem Exclusive.take (exclusive : s.Exclusive) {id : Nat} {action : α} (taken : s.take id = some (action, s')) :
    s'.Exclusive := by
  obtain ⟨timer, found, same⟩ := Option.map_eq_some_iff.mp taken
  obtain ⟨_, rfl⟩ := Prod.mk.inj same
  have member := List.mem_of_find?_eq_some found
  have number : timer.id = id := by simpa using List.find?_some found
  refine ⟨?_, fun e kept => exclusive.used e (List.mem_of_mem_filter kept)⟩
  intro t kept key
  obtain ⟨listed, differs⟩ := List.mem_filter.mp kept
  rw [bne_iff_ne, ← number] at differs
  show _ ↔ (s.keyed.filter fun e => decide (some e.1 ≠ timer.action.key)).lookup key = some t.id
  rw [lookup_filter s.keyed (fun k => decide (some k ≠ timer.action.key)) key]
  by_cases own : some key = timer.action.key
  · rw [if_neg (by simpa using own)]
    refine iff_of_false (fun shared => differs ?_) nofun
    have first := (exclusive.held timer member key).mp own.symm
    rw [(exclusive.held t listed key).mp shared] at first
    exact Option.some_inj.mp first
  · rw [if_pos (by simpa using own)]
    exact exclusive.held t listed key

theorem keyed_take {id : Nat} {action : α} (taken : s.take id = some (action, s')) : s'.keyed.Sublist s.keyed := by
  obtain ⟨timer, _, same⟩ := Option.map_eq_some_iff.mp taken
  obtain ⟨_, rfl⟩ := Prod.mk.inj same
  exact List.filter_sublist

theorem timerOf?_take {id known : Nat} {action : α} (taken : s.take id = some (action, s'))
    (found : s'.timerOf? key = some known) : s.timerOf? key = some known := by
  obtain ⟨timer, _, same⟩ := Option.map_eq_some_iff.mp taken
  obtain ⟨_, rfl⟩ := Prod.mk.inj same
  have found : (s.keyed.filter fun e => decide (some e.1 ≠ timer.action.key)).lookup key = some known := found
  rw [lookup_filter s.keyed (fun k => decide (some k ≠ timer.action.key)) key] at found
  split at found
  · exact found
  · cases found

/-! ### Other operations -/

theorem Exclusive.subset (exclusive : s.Exclusive) (timers : s'.queue.timers ⊆ s.queue.timers)
    (nextId : s.queue.nextId ≤ s'.queue.nextId) (keyed : s'.keyed = s.keyed) : s'.Exclusive where
  held t member key := by
    rw [timerOf?, keyed]
    exact exclusive.held t (timers member) key
  used e member := by
    rw [keyed] at member
    exact Nat.lt_of_lt_of_le (exclusive.used e member) nextId

theorem Exclusive.schedule (exclusive : s.Exclusive) (delay : Int) (action : α) :
    (s.schedule delay action).2.Exclusive where
  held t member key := by
    rcases List.mem_append.mp member with old | new
    · exact exclusive.held t old key
    · obtain rfl := List.mem_singleton.mp new
      refine iff_of_false nofun fun known => ?_
      exact Nat.lt_irrefl _ (exclusive.used _ (mem_of_lookup known))
  used e member := Nat.lt_succ_of_lt (exclusive.used e member)

theorem Exclusive.cancelKey (exclusive : s.Exclusive) (key : κ) : (s.cancelKey key).2.Exclusive where
  held t member other := by
    obtain ⟨old, differs⟩ := exclusive.mem_cancelKey.mp member
    rw [timerOf?_cancelKey]
    by_cases same : other = key
    · rw [if_pos same, same]
      exact iff_of_false differs nofun
    · rw [if_neg same]
      exact exclusive.held t old other
  used e member := by
    rw [(cancelKey_loses s key).nextId]
    exact exclusive.used e (keyed_cancelKey s key member)

theorem Exclusive.mem_cancelKeys (exclusive : s.Exclusive) {t : Timer (Job κ α)}
    (member : t ∈ s.cancelKeys.queue.timers) : t.action.key = none := by
  rw [cancelKeys, TimerQueue.removeAll_eq] at member
  obtain ⟨old, kept⟩ := List.mem_filter.mp member
  cases own : t.action.key with
  | none => rfl
  | some key =>
    have entry := mem_of_lookup ((exclusive.held t old key).mp own)
    have removed : (s.keyed.any fun e => e.2 == t.id) = true :=
      List.any_eq_true.mpr ⟨_, entry, beq_self_eq_true _⟩
    rw [removed] at kept
    cases kept

theorem Exclusive.cancelKeys (exclusive : s.Exclusive) : s.cancelKeys.Exclusive where
  held t member key := by
    rw [exclusive.mem_cancelKeys member]
    exact iff_of_false nofun nofun
  used _ member := by cases member

/-! ### The keys that are remembered -/

def keys (s : Scheduler κ α) : List κ := s.keyed.map (·.1)

theorem mem_keys : key ∈ s.keys ↔ ∃ id, s.timerOf? key = some id := by
  rw [keys, List.mem_map]
  refine ⟨?_, ?_⟩
  · rintro ⟨e, member, rfl⟩
    cases known : s.timerOf? e.1 with
    | some id => exact ⟨id, rfl⟩
    | none =>
      have absent := List.lookup_eq_none_iff.mp known e member
      simp at absent
  · rintro ⟨id, known⟩
    exact ⟨_, mem_of_lookup known, rfl⟩

theorem timerOf?_of_mem (distinct : s.keys.Nodup) {entry : κ × Nat} (member : entry ∈ s.keyed) :
    s.timerOf? entry.1 = some entry.2 := by
  obtain ⟨id, known⟩ := mem_keys.mp (List.mem_map_of_mem member)
  have same := List.inj_on_of_nodup_map distinct (mem_of_lookup known) member rfl
  rw [known, ← same]

theorem keys_cancelKey (s : Scheduler κ α) (key : κ) : (s.cancelKey key).2.keys.Sublist s.keys := by
  unfold Scheduler.cancelKey
  split
  · exact List.Sublist.refl _
  · exact List.filter_sublist.map _

theorem keys_trigger (s : Scheduler κ α) (key : κ) (action : α) :
    (s.trigger key action).keys = key :: (s.cancelKey key).2.keys := rfl

theorem nodup_keys_trigger (distinct : s.keys.Nodup) (key : κ) (action : α) : (s.trigger key action).keys.Nodup := by
  rw [keys_trigger]
  refine List.nodup_cons.mpr ⟨?_, distinct.sublist (keys_cancelKey s key)⟩
  intro member
  obtain ⟨id, known⟩ := mem_keys.mp member
  rw [timerOf?_cancelKey, if_pos rfl] at known
  cases known

end Scheduler
end QueryService
