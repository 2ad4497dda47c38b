import Mathlib
import QueryService.Cache

/-!
# What a bounded cache keeps

If the value of a key never changes, a cache keeps the longest beginning of the keys in order of use that
its limits allow (`mem_keys_iff`): how the entries came and went on the way leaves no trace.
-/

namespace QueryService

/-- Whether entries of these weights are within the limits. -/
def CachePolicy.Admits (policy : CachePolicy) (weights : List Nat) : Prop :=
  (policy.maxEntries = 0 ∨ weights.length ≤ policy.maxEntries) ∧
    (policy.maxBytes = 0 ∨ weights.sum ≤ policy.maxBytes)

instance (policy : CachePolicy) (weights : List Nat) : Decidable (policy.Admits weights) :=
  inferInstanceAs (Decidable (_ ∧ _))

/-- Whether keys of these weights may stay together; a single one always may. -/
def CachePolicy.Allows (policy : CachePolicy) (weights : List Nat) : Prop :=
  weights.length ≤ 1 ∨ policy.Admits weights

instance (policy : CachePolicy) (weights : List Nat) : Decidable (policy.Allows weights) :=
  inferInstanceAs (Decidable (_ ∨ _))

theorem CachePolicy.Allows.mono {policy : CachePolicy} {few many : List Nat} (allowed : policy.Allows many)
    (size : few.length ≤ many.length) (sum : few.sum ≤ many.sum) : policy.Allows few := by
  refine allowed.imp (Nat.le_trans size) fun admitted => ?_
  exact ⟨admitted.1.imp_right (Nat.le_trans size), admitted.2.imp_right (Nat.le_trans sum)⟩

theorem CachePolicy.Allows.length_le {policy : CachePolicy} {weights : List Nat} (allowed : policy.Allows weights)
    (limit : policy.maxEntries ≠ 0) : weights.length ≤ policy.maxEntries := by
  rcases allowed with few | ⟨number, _⟩ <;> omega

theorem CachePolicy.Allows.subset {policy : CachePolicy} {few many : List Bytes} {weight : Bytes → Nat}
    (allowed : policy.Allows (many.map weight)) (distinct : few.Nodup) (part : few ⊆ many) :
    policy.Allows (few.map weight) := by
  obtain ⟨listed, same, sublist⟩ := distinct.subperm part
  have size := (sublist.map weight).length_le
  have sum := (sublist.map weight).sum_le_sum fun _ _ => Nat.zero_le _
  rw [(same.map weight).length_eq] at size
  rw [(same.map weight).sum_eq] at sum
  exact allowed.mono size sum

namespace Cache

variable {α : Type} {c : Cache α} {value : Bytes → α} {order : List Bytes}

/-! ### Looking up -/

theorem get_fst (c : Cache α) (key : Bytes) : (c.get key).1 = (c.find? key).map (·.value) := by
  unfold get
  cases c.find? key <;> rfl

theorem find?_without {key other : Bytes} (entries : List (CacheEntry α)) (differ : key ≠ other) :
    (without other entries).find? (·.key == key) = entries.find? (·.key == key) := by
  rw [without, List.find?_filter]
  congr 1
  funext e
  by_cases same : e.key = key
  · simp [same, differ]
  · simp [same]

theorem find?_get (c : Cache α) (key other : Bytes) : (c.get other).2.find? key = c.find? key := by
  unfold get
  cases found : c.find? other with
  | none => rfl
  | some entry =>
    rw [find?] at found
    have itself := List.find?_some found
    by_cases same : key = other
    · rw [same, find?, find?, found]
      exact List.find?_cons_of_pos itself
    · have differs : ¬ (entry.key == key) = true := by
        rw [eq_of_beq itself]
        exact fun equal => same (eq_of_beq equal).symm
      exact (List.find?_cons_of_neg (p := fun e : CacheEntry α => e.key == key) differs).trans
        (find?_without c.entries same)

/-! ### Limits -/

theorem overLimit_iff (bytes : c.bytes = (c.entries.map (·.weight)).sum) :
    c.overLimit = true ↔ ¬ c.policy.Admits (c.entries.map (·.weight)) := by
  rw [CachePolicy.Admits, List.length_map, ← bytes, overLimit, size]
  simp only [Bool.or_eq_true, Bool.and_eq_true, bne_iff_ne, ne_eq, decide_eq_true_eq]
  omega

/-- The sum of the weights is kept when the last entry goes. -/
theorem bytes_dropOldest (bytes : c.bytes = (c.entries.map (·.weight)).sum) :
    c.dropOldest.bytes = (c.dropOldest.entries.map (·.weight)).sum := by
  rw [dropOldest]
  dsimp only
  rw [bytes]
  rcases List.eq_nil_or_concat c.entries with empty | ⟨kept, oldest, split⟩
  · rw [empty]; rfl
  · rw [split]
    simp

/-! ### Order of use -/

def keys (c : Cache α) : List Bytes := c.entries.map (·.key)

def weight (c : Cache α) (value : Bytes → α) (key : Bytes) : Nat := c.weigh key (value key)

/-- The cache holds the keys that were used last, and no more of them would be allowed to stay. -/
structure Covers (c : Cache α) (value : Bytes → α) (order : List Bytes) : Prop where
  bytes : c.bytes = (c.entries.map (·.weight)).sum
  entries : ∀ e ∈ c.entries, e = ⟨e.key, value e.key, c.weight value e.key⟩
  distinct : order.Nodup
  latest : c.keys <+: order
  maximal : ∀ longer, longer <+: order → c.keys.length < longer.length →
    ¬ c.policy.Allows (longer.map (c.weight value))

theorem Covers.weights (covers : c.Covers value order) :
    c.entries.map (·.weight) = c.keys.map (c.weight value) := by
  rw [keys, List.map_map]
  exact List.map_congr_left fun e member => by rw [covers.entries e member]; rfl

theorem Covers.overLimit_iff (covers : c.Covers value order) :
    c.overLimit = true ↔ ¬ c.policy.Admits (c.keys.map (c.weight value)) := by
  rw [← covers.weights]
  exact Cache.overLimit_iff covers.bytes

theorem Covers.dropOldest (covers : c.Covers value order) (several : 1 < c.size) (full : c.overLimit = true) :
    c.dropOldest.Covers value order where
  bytes := bytes_dropOldest covers.bytes
  entries e member := covers.entries e (List.dropLast_subset c.entries member)
  distinct := covers.distinct
  latest := by
    have shorter : c.dropOldest.keys <+: c.keys := by
      rw [keys, keys, Cache.dropOldest, List.map_dropLast]
      exact List.dropLast_prefix _
    exact shorter.trans covers.latest
  maximal longer listed more := by
    have size : c.dropOldest.keys.length = c.keys.length - 1 := by
      rw [keys, keys, Cache.dropOldest, List.length_map, List.length_dropLast, List.length_map]
    rcases Nat.lt_or_ge c.keys.length longer.length with beyond | within
    · exact covers.maximal longer listed beyond
    · have same : longer = c.keys :=
        List.IsPrefix.eq_of_length (List.prefix_of_prefix_length_le listed covers.latest within) (by omega)
      rw [same]
      rintro (few | admitted)
      · rw [List.length_map, keys, List.length_map] at few
        exact absurd several (Nat.not_lt.mpr few)
      · exact covers.overLimit_iff.mp full admitted

/-- After eviction the cache holds as many of the keys used last as may stay. -/
theorem Covers.evict (covers : c.Covers value order) :
    c.evict.Covers value order ∧ c.evict.policy.Allows (c.evict.keys.map (c.evict.weight value)) := by
  fun_induction Cache.evict c with
  | case1 c full ih => exact ih (covers.dropOldest full.1 full.2)
  | case2 c within =>
    refine ⟨covers, ?_⟩
    rcases Nat.lt_or_ge 1 c.size with several | few
    · right
      by_contra beyond
      exact within ⟨several, covers.overLimit_iff.mpr beyond⟩
    · left
      rwa [List.length_map, keys, List.length_map]

theorem sum_without {entries : List (CacheEntry α)} (distinct : (entries.map (·.key)).Nodup) (key : Bytes) :
    ((entries.find? (·.key == key)).map (·.weight)).getD 0 + ((without key entries).map (·.weight)).sum =
      (entries.map (·.weight)).sum := by
  induction entries with
  | nil => rfl
  | cons e entries ih =>
    obtain ⟨fresh, distinct⟩ := List.nodup_cons.mp distinct
    by_cases same : e.key = key
    · have others : without key (e :: entries) = entries := by
        rw [without, List.filter_cons, if_neg (by simp [same]), List.filter_eq_self]
        intro other member
        rw [bne_iff_ne, ← same]
        intro equal
        exact fresh (List.mem_map.mpr ⟨other, member, equal⟩)
      rw [others, List.find?_cons_of_pos (by simp [same])]
      rfl
    · have kept : without key (e :: entries) = e :: without key entries := by
        rw [without, List.filter_cons, if_pos (by simp [same])]
        rfl
      rw [kept, List.find?_cons_of_neg (by simp [same]), List.map_cons, List.sum_cons, List.map_cons, List.sum_cons,
        ← ih distinct]
      omega

theorem keys_without (key : Bytes) (entries : List (CacheEntry α)) :
    (without key entries).map (·.key) = (entries.map (·.key)).filter (· != key) := by
  rw [without, List.filter_map]
  rfl

theorem subset_of_longer {held order longer : List Bytes} {key : Bytes} (listed : held <+: order)
    (beginning : longer <+: order.filter (· != key)) (more : (held.filter (· != key)).length < longer.length) :
    ∃ x, held ++ [x] <+: order ∧ held ++ [x] ⊆ key :: longer := by
  obtain ⟨rest, split⟩ := listed
  cases rest with
  | nil =>
    rw [List.append_nil] at split
    rw [split] at more
    exact absurd beginning.length_le (Nat.not_le.mpr more)
  | cons x later =>
    have within : held.filter (· != key) <+: longer :=
      List.prefix_of_prefix_length_le
        ⟨(x :: later).filter (· != key), by rw [← split, List.filter_append]⟩ beginning (Nat.le_of_lt more)
    refine ⟨x, ⟨later, by rw [← split, List.append_assoc]; rfl⟩, ?_⟩
    intro y member
    by_cases same : y = key
    · rw [same]
      exact List.mem_cons_self
    · apply List.mem_cons_of_mem
      rcases List.mem_append.mp member with inside | next
      · exact within.subset (List.mem_filter.mpr ⟨inside, by simp [same]⟩)
      · have single : y = x := List.mem_singleton.mp next
        have reach : held.filter (· != key) ++ [x] <+: longer := by
          refine List.prefix_of_prefix_length_le ⟨later.filter (· != key), ?_⟩ beginning ?_
          · rw [← split, List.filter_append, List.filter_cons, if_pos (by simp [← single, same]),
              List.append_assoc]
            rfl
          · rw [List.length_append]
            exact more
        rw [single]
        exact reach.subset (List.mem_append_right _ List.mem_cons_self)

theorem Covers.put (covers : c.Covers value order) (key : Bytes) :
    (c.put key (value key)).Covers value (key :: order.filter (· != key)) ∧
      (c.put key (value key)).policy.Allows
        ((c.put key (value key)).keys.map ((c.put key (value key)).weight value)) := by
  have heldDistinct : c.keys.Nodup := covers.distinct.sublist covers.latest.sublist
  rw [Cache.put]
  refine Covers.evict ?_
  refine ⟨?_, ?_, ?_, ?_, ?_⟩
  · have split := sum_without heldDistinct key
    have total := covers.bytes
    rw [find?]
    simp only [List.map_cons, List.sum_cons]
    omega
  · intro e member
    rcases List.mem_cons.mp member with rfl | member
    · rfl
    · exact covers.entries e (List.mem_filter.mp member).1
  · exact List.nodup_cons.mpr ⟨by simp, covers.distinct.filter _⟩
  · rw [keys, List.map_cons, keys_without]
    exact List.cons_prefix_cons.mpr ⟨rfl, covers.latest.filter _⟩
  · intro longer listed more
    rw [keys, List.map_cons, keys_without, List.length_cons] at more
    cases longer with
    | nil => cases more
    | cons first longer =>
      obtain ⟨rfl, beginning⟩ := List.cons_prefix_cons.mp listed
      obtain ⟨x, reached, part⟩ := subset_of_longer covers.latest beginning (Nat.lt_of_succ_lt_succ more)
      intro allowed
      refine covers.maximal (c.keys ++ [x]) reached ?_ (allowed.subset ?_ part)
      · rw [List.length_append]
        exact Nat.lt_succ_self _
      · exact covers.distinct.sublist reached.sublist

/-! ### What is kept -/

/-- The different keys of a history of puts, the one put last first. -/
def recent (history : List Bytes) : List Bytes := history.reverse.eraseDups

theorem eraseDups_filter {keys : List Bytes} (q : Bytes → Bool) :
    (keys.filter q).eraseDups = keys.eraseDups.filter q := by
  induction length : keys.length using Nat.strongRecOn generalizing keys with
  | ind size ih =>
    cases keys with
    | nil => rfl
    | cons key keys =>
      have shorter : (keys.filter fun other => !other == key).length < size := by
        rw [← length]
        exact Nat.lt_succ_of_le (List.length_filter_le _ _)
      rw [List.eraseDups_cons, List.filter_cons, List.filter_cons, ← ih _ shorter rfl]
      split
      · rw [List.eraseDups_cons, List.filter_filter, List.filter_filter]
        simp only [Bool.and_comm]
      · rename_i dropped
        rw [List.filter_filter]
        congr 1
        refine List.filter_congr fun other _ => ?_
        by_cases same : other = key
        · simp [same, dropped]
        · simp [same]

theorem recent_append (history : List Bytes) (key : Bytes) :
    recent (history ++ [key]) = key :: (recent history).filter (· != key) := by
  rw [recent, List.reverse_append, List.reverse_singleton, List.singleton_append, List.eraseDups_cons,
    eraseDups_filter]
  rfl

/-- The keys that were put last, as far as they may stay together with `key`. -/
def upTo (history : List Bytes) (key : Bytes) : List Bytes :=
  (recent history).takeWhile (· != key) ++ [key]

theorem not_mem_takeWhile (key : Bytes) (keys : List Bytes) : key ∉ keys.takeWhile (· != key) := by
  intro member
  have differs := List.all_eq_true.mp List.all_takeWhile key member
  simp at differs

theorem upTo_prefix {history : List Bytes} {key : Bytes} (used : key ∈ history) :
    upTo history key <+: recent history := by
  have listed : key ∈ recent history := List.mem_eraseDups.mpr (List.mem_reverse.mpr used)
  have split := List.takeWhile_append_dropWhile (p := (· != key)) (l := recent history)
  cases rest : (recent history).dropWhile (· != key) with
  | nil =>
    rw [rest, List.append_nil] at split
    exact absurd (split ▸ listed) (not_mem_takeWhile key _)
  | cons first later =>
    have stopped := List.head?_dropWhile_not (· != key) (recent history)
    rw [rest] at stopped
    have same : first = key := by simpa using stopped
    rw [rest, same] at split
    exact ⟨later, by rw [upTo, List.append_assoc, List.singleton_append, split]⟩

/-- The cache is what a history of puts leaves of an empty one. -/
structure Keeps (c : Cache α) (value : Bytes → α) (history : List Bytes) : Prop where
  covers : c.Covers value (recent history)
  allowed : c.policy.Allows (c.keys.map (c.weight value))

theorem Keeps.empty (value : Bytes → α) (entries : c.entries = []) (bytes : c.bytes = 0) : c.Keeps value [] where
  covers := by
    have none : c.keys = [] := by rw [keys, entries]; rfl
    refine ⟨by rw [entries, bytes]; rfl, ?_, List.nodup_nil, by rw [none]; exact List.prefix_refl [], ?_⟩
    · intro e member
      rw [entries] at member
      cases member
    · intro longer listed more
      rw [List.prefix_nil.mp listed] at more
      cases more
  allowed := by
    rw [keys, entries]
    exact Or.inl (Nat.zero_le 1)

theorem Keeps.put {history : List Bytes} (keeps : c.Keeps value history) (key : Bytes) :
    (c.put key (value key)).Keeps value (history ++ [key]) := by
  have put := keeps.covers.put key
  exact ⟨by rw [recent_append]; exact put.1, put.2⟩

/-- A key is kept exactly if it may stay together with those put after it. -/
theorem Keeps.mem_keys_iff {history : List Bytes} (keeps : c.Keeps value history) (key : Bytes) :
    key ∈ c.keys ↔ key ∈ history ∧ c.policy.Allows ((upTo history key).map (c.weight value)) := by
  have covers := keeps.covers
  constructor
  · intro held
    have used : key ∈ history := by
      have listed := covers.latest.subset held
      exact List.mem_reverse.mp (List.mem_eraseDups.mp listed)
    have beginning := upTo_prefix used
    refine ⟨used, keeps.allowed.subset (covers.distinct.sublist beginning.sublist) ?_⟩
    rcases Nat.lt_or_ge c.keys.length (upTo history key).length with long | short
    · rw [upTo, List.length_append] at long
      have before := List.prefix_of_prefix_length_le covers.latest (List.takeWhile_prefix (· != key))
        (Nat.le_of_lt_succ long)
      exact absurd (before.subset held) (not_mem_takeWhile key _)
    · exact (List.prefix_of_prefix_length_le beginning covers.latest short).subset
  · rintro ⟨used, together⟩
    have beginning := upTo_prefix used
    rcases Nat.lt_or_ge c.keys.length (upTo history key).length with beyond | within
    · exact absurd together (covers.maximal _ beginning beyond)
    · have inside := List.prefix_of_prefix_length_le beginning covers.latest within
      exact inside.subset (List.mem_append_right _ List.mem_cons_self)

theorem Keeps.find?_of_mem {history : List Bytes} (keeps : c.Keeps value history) {key : Bytes}
    (held : key ∈ c.keys) : c.find? key = some ⟨key, value key, c.weight value key⟩ := by
  cases found : c.find? key with
  | none =>
    obtain ⟨e, member, same⟩ := List.mem_map.mp held
    exact absurd (beq_iff_eq.mpr same) (List.find?_eq_none.mp found e member)
  | some e =>
    have same : e.key = key := by simpa using List.find?_some found
    rw [← same]
    exact congrArg some (keeps.covers.entries e (List.mem_of_find?_eq_some found))

theorem find?_eq_none_iff {key : Bytes} : c.find? key = none ↔ key ∉ c.keys := by
  rw [find?, List.find?_eq_none, keys, List.mem_map]
  simp

theorem evict_frame (c : Cache α) : c.evict.policy = c.policy ∧ c.evict.weigh = c.weigh := by
  fun_induction Cache.evict c with
  | case1 c _ ih => exact ih
  | case2 c => exact ⟨rfl, rfl⟩

theorem evict_subset (c : Cache α) : c.evict.entries ⊆ c.entries := by
  fun_induction Cache.evict c with
  | case1 c _ ih => exact List.Subset.trans ih (List.dropLast_subset c.entries)
  | case2 c => exact List.Subset.refl _

theorem mem_put {key : Bytes} {made : α} {e : CacheEntry α} (member : e ∈ (c.put key made).entries) :
    e = ⟨key, made, c.weigh key made⟩ ∨ e ∈ c.entries := by
  rcases List.mem_cons.mp (evict_subset _ member) with rfl | kept
  · exact Or.inl rfl
  · exact Or.inr (List.mem_filter.mp kept).1

theorem mem_get {key : Bytes} {e : CacheEntry α} (member : e ∈ (c.get key).2.entries) : e ∈ c.entries := by
  unfold get at member
  cases found : c.find? key with
  | none =>
    rw [found] at member
    exact member
  | some entry =>
    rw [found] at member
    rcases List.mem_cons.mp member with rfl | kept
    · exact List.mem_of_find?_eq_some found
    · exact (List.mem_filter.mp kept).1

theorem put_frame (c : Cache α) (key : Bytes) (value : α) :
    (c.put key value).policy = c.policy ∧ (c.put key value).weigh = c.weigh :=
  evict_frame _

theorem get_policy (c : Cache α) (key : Bytes) : (c.get key).2.policy = c.policy := by
  unfold get
  split <;> rfl

theorem erase_policy (c : Cache α) (key : Bytes) : (c.erase key).policy = c.policy := by
  unfold erase
  split <;> rfl

/-! ### Without limits -/

theorem evict_of_unlimited (unlimited : c.policy = ⟨0, 0⟩) : c.evict = c := by
  have within : c.overLimit = false := by
    rw [overLimit, unlimited]
    rfl
  rw [evict, if_neg]
  rw [within]
  exact fun full => nomatch full.2

theorem contains_put (unlimited : c.policy = ⟨0, 0⟩) (key other : Bytes) (value : α) :
    (c.put key value).contains other = true ↔ other = key ∨ c.contains other = true := by
  have kept : (c.put key value).find? other =
      (⟨key, value, c.weigh key value⟩ :: without key c.entries).find? (·.key == other) := by
    unfold put
    dsimp only
    rw [evict_of_unlimited (by exact unlimited)]
    rfl
  rw [contains, kept, contains]
  by_cases same : other = key
  · rw [List.find?_cons_of_pos (by simp [same])]
    exact iff_of_true rfl (Or.inl same)
  · rw [List.find?_cons_of_neg (by simpa using Ne.symm same), find?_without c.entries same]
    exact (or_iff_right same).symm

end Cache
end QueryService
