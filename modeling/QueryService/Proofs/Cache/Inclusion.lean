import QueryService.Proofs.Cache.Eviction

/-!
# Caches of two sizes

Two caches get the same commands, and one may hold more entries than the other. The small one then never
answers what the large one does not (`larger_limit_includes`). Its entries stand in the large one in the same
order, but not always at the front: a key that only the large cache holds comes forward when it is
asked for, and may be erased. What lasts is that the large cache is ahead by no more entries than its limit is.
-/

namespace QueryService
namespace Cache

variable {α : Type} {n m : Nat} {small large : Cache α} {c d : Cache α} {key : Bytes}

def pairs (c : Cache α) : List (Bytes × α) := c.entries.map fun e => (e.key, e.value)

structure Includes (n m : Nat) (small large : Cache α) : Prop where
  pairs : small.pairs.Sublist large.pairs
  lead : m = 0 ∨ large.size ≤ small.size + (m - n)
  evictions : large.evictions ≤ small.evictions
  hits : small.hits ≤ large.hits

theorem pairs_without (key : Bytes) (entries : List (CacheEntry α)) :
    (without key entries).map (fun e => (e.key, e.value)) =
      (entries.map fun e => (e.key, e.value)).filter (·.1 != key) := by
  rw [without, List.filter_map]
  rfl

theorem take_sublist_take {β : Type} {few many : List β} {i j : Nat} (sublist : few.Sublist many) (more : j ≤ i) :
    (few.take (few.length - i)).Sublist (many.take (many.length - j)) := by
  rw [← List.reverse_sublist, ← List.drop_reverse, ← List.drop_reverse]
  exact (List.drop_sublist_drop_left _ more).trans (sublist.reverse.drop j)

theorem allows_entries_iff (n : Nat) (weights : List Nat) :
    (⟨n, 0⟩ : CachePolicy).Allows weights ↔ n = 0 ∨ weights.length ≤ n := by
  show weights.length ≤ 1 ∨ (n = 0 ∨ weights.length ≤ n) ∧ (0 = 0 ∨ weights.sum ≤ 0) ↔ _
  omega

/-- Without a limit on bytes, what exceeds the limit on entries is given up. -/
theorem Evicts.number_eq {number : Nat} (evicts : c.Evicts d number) (policy : c.policy = ⟨n, 0⟩) :
    number = if n = 0 then 0 else c.size - n := by
  have fits (i : Nat) : c.policy.Allows ((c.entries.take (c.size - i)).map (·.weight)) ↔ n = 0 ∨ c.size - i ≤ n := by
    rw [policy, allows_entries_iff, List.length_map, List.length_take, ← size, Nat.min_eq_left (Nat.sub_le _ _)]
  have enough := (fits number).mp evicts.least.1
  split
  · rename_i unlimited
    exact Nat.le_zero.mp (evicts.least.2 ((fits 0).mpr (Or.inl unlimited)))
  · have least : number ≤ c.size - n := evicts.least.2 ((fits (c.size - n)).mpr (Or.inr (by omega)))
    omega

namespace Includes

variable (includes : Includes n m small large)
include includes

theorem keys : small.keys.Sublist large.keys := by
  have first := includes.pairs.map Prod.fst
  rwa [Cache.pairs, Cache.pairs, List.map_map, List.map_map] at first

theorem find? (distinct : large.keys.Nodup) {e : CacheEntry α} (found : small.find? key = some e) :
    ∃ f, large.find? key = some f ∧ f.value = e.value := by
  have itself : e.key = key := by simpa using List.find?_some found
  have listed : (e.key, e.value) ∈ large.pairs :=
    includes.pairs.subset (List.mem_map.mpr ⟨e, List.mem_of_find?_eq_some found, rfl⟩)
  obtain ⟨f, member, same⟩ := List.mem_map.mp listed
  obtain ⟨sameKey, sameValue⟩ := Prod.mk.inj same
  refine ⟨f, ?_, sameValue⟩
  rw [← itself, ← sameKey]
  exact find?_of_mem distinct member

theorem get (distinct : large.keys.Nodup) {value : α} (hit : (small.get key).1 = some value) :
    (large.get key).1 = some value := by
  rw [get_fst, Option.map_eq_some_iff] at hit
  obtain ⟨e, found, rfl⟩ := hit
  obtain ⟨f, foundToo, same⟩ := includes.find? distinct found
  rw [get_fst, foundToo, Option.map_some, same]

/-- Where the large cache gives up entries, the small one gives up as many or more. -/
theorem evict (some : 1 ≤ n) (larger : n ≤ m ∨ m = 0) (policies : small.policy = ⟨n, 0⟩ ∧ large.policy = ⟨m, 0⟩)
    (smallBytes : small.bytes = (small.entries.map (·.weight)).sum)
    (largeBytes : large.bytes = (large.entries.map (·.weight)).sum) : Includes n m small.evict large.evict := by
  obtain ⟨i, fromSmall⟩ := exists_evicts smallBytes
  obtain ⟨j, fromLarge⟩ := exists_evicts largeBytes
  have numbers := And.intro (fromSmall.number_eq policies.1) (fromLarge.number_eq policies.2)
  rw [if_neg (by omega)] at numbers
  have lead := includes.lead
  have more : j ≤ i := by
    split at numbers <;> omega
  refine ⟨?_, ?_, ?_, ?_⟩
  · rw [Cache.pairs, Cache.pairs, fromSmall.entries, fromLarge.entries, List.map_take, List.map_take]
    have cut := take_sublist_take includes.pairs more
    rwa [Cache.pairs, Cache.pairs, List.length_map, List.length_map] at cut
  · rw [fromSmall.size_eq, fromLarge.size_eq]
    split at numbers <;> omega
  · rw [fromSmall.evictions, fromLarge.evictions]
    exact Nat.add_le_add includes.evictions more
  · rw [fromSmall.frame.2.2.1, fromLarge.frame.2.2.1]
    exact includes.hits

theorem pairs_without (key : Bytes) :
    ((without key small.entries).map fun e => (e.key, e.value)).Sublist
      ((without key large.entries).map fun e => (e.key, e.value)) := by
  rw [Cache.pairs_without, Cache.pairs_without]
  exact includes.pairs.filter _

/-- Taking out a key takes it out of the large cache if it does so of the small one. -/
theorem lead_without (smallKeys : small.keys.Nodup) (largeKeys : large.keys.Nodup) (key : Bytes) :
    m = 0 ∨ (without key large.entries).length ≤ (without key small.entries).length + (m - n) := by
  have lead := includes.lead
  have both : key ∈ small.keys → key ∈ large.keys := fun held => includes.keys.subset held
  rw [length_without smallKeys, length_without largeKeys]
  by_cases held : key ∈ small.keys
  · have inhabited := size_pos_of_mem held
    rw [if_pos held, if_pos (both held)]
    omega
  · rw [if_neg held]
    split <;> omega

theorem put (smallKeys : small.keys.Nodup) (largeKeys : large.keys.Nodup) {value : α}
    (fromSmall : small.opened? (.put key value) = some c) (fromLarge : large.opened? (.put key value) = some d) :
    Includes n m c d := by
  have lead := includes.lead_without smallKeys largeKeys key
  rw [← Option.some.inj fromSmall, ← Option.some.inj fromLarge]
  refine ⟨(includes.pairs_without key).cons_cons (key, value), ?_, includes.evictions, includes.hits⟩
  rw [size, size, List.length_cons, List.length_cons]
  omega

theorem get_snd (smallKeys : small.keys.Nodup) (largeKeys : large.keys.Nodup) (key : Bytes) :
    Includes n m (small.get key).2 (large.get key).2 := by
  have lead := includes.lead
  unfold Cache.get
  cases found : small.find? key with
  | none =>
    cases foundToo : large.find? key with
    | none => exact ⟨includes.pairs, lead, includes.evictions, includes.hits⟩
    | some f =>
      -- Only the large cache holds the key: its own entry comes forward past all that both hold.
      have absent := find?_eq_none_iff.mp found
      have held : key ∈ large.keys := by
        by_contra missing
        rw [find?_eq_none_iff.mpr missing] at foundToo
        cases foundToo
      have inhabited := size_pos_of_mem held
      refine ⟨?_, ?_, includes.evictions, Nat.le_succ_of_le includes.hits⟩
      · have same := includes.pairs_without key
        rw [without_of_absent absent] at same
        exact same.cons _
      · show m = 0 ∨ (f :: without key large.entries).length ≤ small.size + (m - n)
        rw [List.length_cons, length_without largeKeys, if_pos held]
        omega
  | some e =>
    obtain ⟨f, foundToo, same⟩ := includes.find? largeKeys found
    have lead := includes.lead_without smallKeys largeKeys key
    have itself : e.key = f.key := by
      have first : e.key = key := by simpa using List.find?_some found
      have second : f.key = key := by simpa using List.find?_some foundToo
      rw [first, second]
    rw [foundToo]
    refine ⟨?_, ?_, includes.evictions, Nat.succ_le_succ includes.hits⟩
    · rw [Cache.pairs, Cache.pairs, List.map_cons, List.map_cons, itself, same]
      exact (includes.pairs_without key).cons_cons _
    · rw [size, size, List.length_cons, List.length_cons]
      omega

theorem erase (smallKeys : small.keys.Nodup) (largeKeys : large.keys.Nodup) (key : Bytes) :
    Includes n m (small.erase key) (large.erase key) := by
  rw [erase_eq, erase_eq]
  exact ⟨includes.pairs_without key, includes.lead_without smallKeys largeKeys key, includes.evictions, includes.hits⟩

theorem perform (some : 1 ≤ n) (larger : n ≤ m ∨ m = 0) {used usedToo : List Bytes}
    (policies : small.policy = ⟨n, 0⟩ ∧ large.policy = ⟨m, 0⟩) (fromSmall : small.Follows (recent used))
    (fromLarge : large.Follows (recent usedToo)) {command : Command α}
    (kept : ∀ policy, command ≠ .setPolicy policy) :
    Includes n m (small.perform command).1 (large.perform command).1 := by
  have smallKeys := (nodup_recent used).sublist fromSmall.latest
  have largeKeys := (nodup_recent usedToo).sublist fromLarge.latest
  cases command with
  | get key => exact includes.get_snd smallKeys largeKeys key
  | contains key => exact includes
  | erase key => exact includes.erase smallKeys largeKeys key
  | clear => exact ⟨List.nil_sublist _, Or.inr (Nat.zero_le _), includes.evictions, includes.hits⟩
  | setPolicy policy => exact absurd rfl (kept policy)
  | put key value =>
    obtain ⟨c, openedSmall⟩ : ∃ c, small.opened? (.put key value) = Option.some c := ⟨_, rfl⟩
    obtain ⟨d, openedLarge⟩ : ∃ d, large.opened? (.put key value) = Option.some d := ⟨_, rfl⟩
    rw [perform_of_opened openedSmall, perform_of_opened openedLarge]
    have opened := includes.put smallKeys largeKeys openedSmall openedLarge
    refine opened.evict some larger ⟨?_, ?_⟩ (fromSmall.opened openedSmall).bytes (fromLarge.opened openedLarge).bytes
    · rw [← policies.1, ← Option.some.inj openedSmall]
    · rw [← policies.2, ← Option.some.inj openedLarge]

end Includes

theorem lastPolicy_of_kept {policy : CachePolicy} {history : List (Command α)}
    (kept : ∀ policy, .setPolicy policy ∉ history) : lastPolicy policy history = policy := by
  induction history with
  | nil => rfl
  | cons command later ih =>
    have rest := ih fun other member => kept other (List.mem_cons_of_mem command member)
    cases command with
    | setPolicy other => exact absurd List.mem_cons_self (kept other)
    | _ => exact rest

theorem includes_run (some : 1 ≤ n) (larger : n ≤ m ∨ m = 0) (weigh weighToo : Bytes → α → Nat)
    {history : List (Command α)} (kept : ∀ policy, .setPolicy policy ∉ history) :
    Includes n m ((fresh ⟨n, 0⟩ weigh).run history) ((fresh ⟨m, 0⟩ weighToo).run history) := by
  induction history using List.reverseRecOn with
  | nil => exact ⟨List.nil_sublist _, Or.inr (Nat.zero_le _), Nat.le_refl _, Nat.le_refl _⟩
  | append_singleton history command ih =>
    have before : ∀ policy, .setPolicy policy ∉ history := fun policy member =>
      kept policy (List.mem_append_left _ member)
    rw [run_concat, run_concat]
    refine (ih before).perform some larger ⟨?_, ?_⟩ (follows_run _ _ history) (follows_run _ _ history) ?_
    · rw [(run_frame _ history).1]
      exact lastPolicy_of_kept before
    · rw [(run_frame _ history).1]
      exact lastPolicy_of_kept before
    · rintro policy rfl
      exact kept policy (List.mem_append_right _ List.mem_cons_self)

/-- What is found under the smaller limit is found under the larger one, which gives up no more. -/
theorem larger_limit_includes (some : 1 ≤ n) (larger : n ≤ m ∨ m = 0) (weigh weighToo : Bytes → α → Nat)
    {history : List (Command α)} (kept : ∀ policy, .setPolicy policy ∉ history) :
    let small := (fresh ⟨n, 0⟩ weigh).run history
    let large := (fresh ⟨m, 0⟩ weighToo).run history
    (∀ key, small.contains key = true → large.contains key = true) ∧
    (∀ key value, (small.get key).1 = Option.some value → (large.get key).1 = Option.some value) ∧
    small.hits ≤ large.hits ∧ large.evictions ≤ small.evictions := by
  intro small large
  have includes : Includes n m small large := includes_run some larger weigh weighToo kept
  have largeKeys : large.keys.Nodup := (nodup_recent _).sublist (follows_run _ _ history).latest
  refine ⟨fun key held => ?_, fun key value => includes.get largeKeys, includes.hits, includes.evictions⟩
  exact contains_iff.mpr (includes.keys.subset (contains_iff.mp held))

/-- The small cache loses a key that the large one brings forward again, and an erased key leaves the large
one further ahead. -/
theorem forwarded_key_included :
    let history : List (Command Nat) :=
      [.put (ascii "a") 1, .put (ascii "b") 2, .get (ascii "a"), .put (ascii "c") 3, .erase (ascii "c"),
        .put (ascii "d") 4]
    let small := (fresh ⟨1, 0⟩ fun _ _ => 0).run history
    let large := (fresh ⟨3, 0⟩ fun _ _ => 0).run history
    small.keys = [ascii "d"] ∧ large.keys = [ascii "d", ascii "a", ascii "b"] ∧
      (large.get (ascii "d")).1 = some 4 ∧ large.evictions ≤ small.evictions := by
  intro history small large
  have kept : ∀ policy, Command.setPolicy policy ∉ history := by simp [history]
  obtain ⟨_, answers, _, evictions⟩ :=
    larger_limit_includes (by decide : 1 ≤ 1) (Or.inl (by decide : 1 ≤ 3)) (fun _ _ => 0) (fun _ _ => 0) kept
  exact ⟨by decide +kernel, by decide +kernel, answers _ _ (by decide +kernel), evictions⟩

end Cache
end QueryService
