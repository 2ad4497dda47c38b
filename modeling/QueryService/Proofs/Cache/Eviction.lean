import QueryService.Proofs.Cache.Recency

/-!
# Order of use and eviction

A cache keeps its entries in the order of their last use through every history of commands
(`follows_run`), and an eviction gives up as few of the last ones as its limits allow (`exists_evicts`).
-/

namespace QueryService

/-- Where no two entries share what they are found by, each is found by its own. -/
theorem find?_of_distinct {β γ : Type} [BEq γ] [LawfulBEq γ] {f : β → γ} {items : List β} {b : β}
    (distinct : (items.map f).Nodup) (member : b ∈ items) : items.find? (f · == f b) = some b := by
  obtain ⟨before, after, rfl⟩ := List.append_of_mem member
  rw [List.map_append, List.map_cons, List.nodup_middle, List.nodup_cons] at distinct
  have earlier : before.find? (f · == f b) = none := by
    rw [List.find?_eq_none]
    intro other listed same
    exact distinct.1 (List.mem_append_left _ (List.mem_map.mpr ⟨other, listed, eq_of_beq same⟩))
  rw [List.find?_append, earlier, Option.none_or]
  exact List.find?_cons_of_pos (beq_self_eq_true (f b))

namespace Cache

variable {α : Type} {c d : Cache α} {history : List (Command α)} {command : Command α} {key : Bytes}

/-! ### Histories of commands -/

def fresh (policy : CachePolicy) (weigh : Bytes → α → Nat) : Cache α := { policy, weigh }

/-- The key that a command uses: one that is put, or asked for and found. -/
def used? (c : Cache α) : Command α → Option Bytes
  | .put key _ => some key
  | .get key => if c.contains key then some key else none
  | _ => none

/-- The keys that commands use, in their order. -/
def uses (c : Cache α) : List (Command α) → List Bytes
  | [] => []
  | command :: later => (c.used? command).toList ++ (c.perform command).1.uses later

/-- The policy that was set last. -/
def lastPolicy (policy : CachePolicy) : List (Command α) → CachePolicy
  | [] => policy
  | .setPolicy new :: later => lastPolicy new later
  | _ :: later => lastPolicy policy later

theorem run_concat (c : Cache α) (history : List (Command α)) (command : Command α) :
    c.run (history ++ [command]) = ((c.run history).perform command).1 := by
  rw [run, List.foldl_append]
  rfl

theorem uses_concat (c : Cache α) (history : List (Command α)) (command : Command α) :
    c.uses (history ++ [command]) = c.uses history ++ ((c.run history).used? command).toList := by
  induction history generalizing c with
  | nil =>
    rw [List.nil_append, uses, uses, uses, List.append_nil, List.nil_append]
    rfl
  | cons first history ih =>
    rw [List.cons_append, uses, ih, uses, List.append_assoc]
    rfl

theorem lastPolicy_concat (policy : CachePolicy) (history : List (Command α)) (command : Command α) :
    lastPolicy policy (history ++ [command]) = lastPolicy (lastPolicy policy history) [command] := by
  induction history generalizing policy with
  | nil => rfl
  | cons first history ih => cases first <;> exact ih _

/-! ### Eviction -/

/-- What an eviction does: it gives up the last `n` entries, as few as the limits allow, and leaves the
rest as it is. -/
structure Evicts (c d : Cache α) (n : Nat) : Prop where
  entries : d.entries = c.entries.take (c.size - n)
  least : IsLeast { n | c.policy.Allows ((c.entries.take (c.size - n)).map (·.weight)) } n
  bytes : d.bytes = (d.entries.map (·.weight)).sum
  evictions : d.evictions = c.evictions + n
  frame : d.policy = c.policy ∧ d.weigh = c.weigh ∧ d.hits = c.hits ∧ d.misses = c.misses

theorem exists_evicts (bytes : c.bytes = (c.entries.map (·.weight)).sum) : ∃ n, c.Evicts c.evict n := by
  fun_induction Cache.evict c with
  | case1 c full ih =>
    obtain ⟨n, evicted⟩ := ih (bytes_dropOldest bytes)
    have size : c.dropOldest.size = c.size - 1 := List.length_dropLast
    have shorter (m : Nat) : c.dropOldest.entries.take (c.dropOldest.size - m) = c.entries.take (c.size - (m + 1)) := by
      rw [size, Nat.sub_sub, Nat.add_comm 1, Cache.dropOldest, List.dropLast_eq_take, List.take_take]
      congr 1
      rw [Cache.size]
      omega
    refine ⟨n + 1, ?_, ⟨?_, ?_⟩, evicted.bytes, ?_, evicted.frame⟩
    · rw [evicted.entries, shorter]
    · have allowed := evicted.least.1
      rwa [Set.mem_ofPred_eq, shorter] at allowed
    · intro m allowed
      obtain _ | m := m
      · rw [Set.mem_ofPred_eq, Nat.sub_zero, Cache.size, List.take_length] at allowed
        rcases allowed with few | admitted
        · rw [List.length_map] at few
          exact absurd full.1 (Nat.not_lt.mpr few)
        · exact absurd admitted ((overLimit_iff bytes).mp full.2)
      · refine Nat.succ_le_succ (evicted.least.2 ?_)
        rw [Set.mem_ofPred_eq, shorter]
        exact allowed
    · rw [evicted.evictions, Cache.dropOldest, Nat.add_assoc, Nat.add_comm 1]
  | case2 c within =>
    refine ⟨0, ?_, ⟨?_, fun _ _ => Nat.zero_le _⟩, bytes, rfl, rfl, rfl, rfl, rfl⟩
    · rw [Nat.sub_zero, Cache.size, List.take_length]
    · rw [Set.mem_ofPred_eq, Nat.sub_zero, Cache.size, List.take_length]
      rcases Nat.lt_or_ge 1 c.size with several | few
      · right
        by_contra beyond
        exact within ⟨several, (overLimit_iff bytes).mpr beyond⟩
      · left
        rwa [List.length_map]

theorem Evicts.size_eq {n : Nat} (evicts : c.Evicts d n) : d.size = c.size - n := by
  rw [Cache.size, evicts.entries, List.length_take]
  exact Nat.min_eq_left (Nat.sub_le _ _)

/-- The entries are in this order of use, and their weights are kept rightly. -/
structure Follows (c : Cache α) (order : List Bytes) : Prop where
  bytes : c.bytes = (c.entries.map (·.weight)).sum
  weights : ∀ e ∈ c.entries, e.weight = c.weigh e.key e.value
  latest : c.keys.Sublist order

theorem nodup_recent (used : List Bytes) : (recent used).Nodup := by
  induction used using List.reverseRecOn with
  | nil => exact List.nodup_nil
  | append_singleton used key ih =>
    rw [recent_append, List.nodup_cons]
    exact ⟨by simp, ih.filter _⟩

theorem contains_iff : c.contains key = true ↔ key ∈ c.keys := by
  rw [contains, Option.isSome_iff_ne_none, ne_eq, find?_eq_none_iff, not_not]

theorem find?_of_mem (distinct : c.keys.Nodup) {e : CacheEntry α} (member : e ∈ c.entries) :
    c.find? e.key = some e := find?_of_distinct distinct member

theorem without_of_absent (absent : key ∉ c.keys) : without key c.entries = c.entries := by
  refine List.filter_eq_self.mpr fun e member => ?_
  rw [bne_iff_ne]
  rintro rfl
  exact absent (List.mem_map.mpr ⟨e, member, rfl⟩)

/-- Erasing is taking out, whether the key is there or not. -/
theorem erase_eq (c : Cache α) (key : Bytes) :
    c.erase key = { c with
      entries := without key c.entries
      bytes := c.bytes - ((c.find? key).map (·.weight)).getD 0 } := by
  rw [erase]
  cases found : c.find? key with
  | none =>
    rw [without_of_absent (find?_eq_none_iff.mp found)]
    rfl
  | some entry => rfl

theorem size_pos_of_mem (held : key ∈ c.keys) : 0 < c.size := by
  rw [size, ← List.length_map (·.key)]
  exact List.length_pos_of_mem held

theorem length_without (distinct : c.keys.Nodup) (key : Bytes) :
    (without key c.entries).length = if key ∈ c.keys then c.size - 1 else c.size := by
  have size : c.keys.length = c.size := List.length_map _
  have others := congrArg List.length (keys_without key c.entries)
  rw [List.length_map] at others
  rw [others, ← size, ← List.length_erase, distinct.erase_eq_filter, keys]

/-! ### One command -/

/-- The cache as a put or a new policy makes it before anything is given up. -/
def opened? (c : Cache α) : Command α → Option (Cache α)
  | .put key value =>
    some { c with
      entries := ⟨key, value, c.weigh key value⟩ :: without key c.entries
      bytes := c.bytes - ((c.find? key).map (·.weight)).getD 0 + c.weigh key value }
  | .setPolicy policy => some { c with policy }
  | _ => none

theorem perform_of_opened (opened : c.opened? command = some d) : (c.perform command).1 = d.evict := by
  cases command with
  | put key value => rw [← Option.some.inj opened]; rfl
  | setPolicy policy => rw [← Option.some.inj opened]; rfl
  | _ => cases opened

theorem Follows.opened {used : List Bytes} (follows : c.Follows (recent used))
    (opened : c.opened? command = some d) : d.Follows (recent (used ++ (c.used? command).toList)) := by
  cases command with
  | put key value =>
    rw [← Option.some.inj opened]
    refine ⟨?_, ?_, ?_⟩
    · have split := sum_without ((nodup_recent used).sublist follows.latest) key
      have total := follows.bytes
      rw [find?]
      simp only [List.map_cons, List.sum_cons]
      omega
    · intro e member
      rcases List.mem_cons.mp member with rfl | kept
      · rfl
      · exact follows.weights e (List.mem_filter.mp kept).1
    · rw [keys, List.map_cons, keys_without, used?, Option.toList_some, recent_append]
      exact (follows.latest.filter _).cons_cons key
  | setPolicy policy =>
    rw [← Option.some.inj opened]
    simp only [used?, Option.toList_none, List.append_nil]
    exact ⟨follows.bytes, follows.weights, follows.latest⟩
  | _ => cases opened

theorem Follows.evict {order : List Bytes} (follows : c.Follows order) : c.evict.Follows order := by
  obtain ⟨n, evicts⟩ := exists_evicts follows.bytes
  refine ⟨evicts.bytes, ?_, ?_⟩
  · intro e member
    rw [evicts.frame.2.1]
    exact follows.weights e (evict_subset c member)
  · rw [keys, evicts.entries]
    exact ((List.take_sublist _ _).map _).trans follows.latest

/-- What was used last comes first in the order, and what goes leaves the others in theirs. -/
theorem Follows.perform {used : List Bytes} (follows : c.Follows (recent used)) (command : Command α) :
    (c.perform command).1.Follows (recent (used ++ (c.used? command).toList)) := by
  have distinct := (nodup_recent used).sublist follows.latest
  cases opened : c.opened? command with
  | some d =>
    rw [perform_of_opened opened]
    exact (follows.opened opened).evict
  | none =>
    cases command with
    | put | setPolicy => cases opened
    | contains key =>
      simp only [used?, Option.toList_none, List.append_nil]
      exact follows
    | clear =>
      simp only [used?, Option.toList_none, List.append_nil]
      exact ⟨rfl, nofun, List.nil_sublist _⟩
    | erase key =>
      simp only [used?, Option.toList_none, List.append_nil]
      show (c.erase key).Follows _
      rw [erase_eq]
      refine ⟨?_, fun e member => follows.weights e (List.mem_filter.mp member).1, ?_⟩
      · have split := sum_without distinct key
        have total := follows.bytes
        rw [find?]
        dsimp only
        omega
      · rw [keys, keys_without]
        exact List.filter_sublist.trans follows.latest
    | get key =>
      show (c.get key).2.Follows _
      rw [get, used?, contains]
      cases found : c.find? key with
      | none =>
        simp only [Option.isSome_none, Bool.false_eq_true, if_false, Option.toList_none, List.append_nil]
        exact ⟨follows.bytes, follows.weights, follows.latest⟩
      | some entry =>
        have split := sum_without distinct key
        have total := follows.bytes
        have itself : entry.key = key := by simpa using List.find?_some found
        rw [← find?, found] at split
        simp only [Option.isSome_some, if_true, Option.toList_some, Option.map_some, Option.getD_some] at split ⊢
        refine ⟨?_, ?_, ?_⟩
        · rw [List.map_cons, List.sum_cons, split]
          exact total
        · intro e member
          rcases List.mem_cons.mp member with rfl | kept
          · exact follows.weights e (List.mem_of_find?_eq_some found)
          · exact follows.weights e (List.mem_filter.mp kept).1
        · rw [keys, List.map_cons, keys_without, recent_append, itself]
          exact (follows.latest.filter _).cons_cons key

/-! ### Runs -/

theorem perform_frame (c : Cache α) (command : Command α) :
    (c.perform command).1.policy = lastPolicy c.policy [command] ∧ (c.perform command).1.weigh = c.weigh := by
  cases command with
  | put key value => exact put_frame c key value
  | setPolicy policy => exact evict_frame _
  | get key =>
    show (c.get key).2.policy = _ ∧ (c.get key).2.weigh = _
    unfold get
    cases c.find? key <;> exact ⟨rfl, rfl⟩
  | erase key =>
    show (c.erase key).policy = _ ∧ (c.erase key).weigh = _
    rw [erase_eq]
    exact ⟨rfl, rfl⟩
  | _ => exact ⟨rfl, rfl⟩

theorem run_frame (c : Cache α) (history : List (Command α)) :
    (c.run history).policy = lastPolicy c.policy history ∧ (c.run history).weigh = c.weigh := by
  induction history using List.reverseRecOn with
  | nil => exact ⟨rfl, rfl⟩
  | append_singleton history command ih =>
    obtain ⟨policy, weigh⟩ := perform_frame (c.run history) command
    rw [run_concat, policy, weigh, lastPolicy_concat, ih.1]
    exact ⟨rfl, ih.2⟩

theorem follows_run (policy : CachePolicy) (weigh : Bytes → α → Nat) (history : List (Command α)) :
    ((fresh policy weigh).run history).Follows (recent ((fresh policy weigh).uses history)) := by
  induction history using List.reverseRecOn with
  | nil => exact ⟨rfl, nofun, List.nil_sublist _⟩
  | append_singleton history command ih =>
    rw [run_concat, uses_concat]
    exact ih.perform command

end Cache
end QueryService
