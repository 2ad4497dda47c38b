import QueryService.Cache.Indexed
import QueryService.Proofs.Cache.Eviction

/-!
# The index of a cache

The index of a cache has the keys of the order of use, each once, and leads from each to its own entry
(`Links`). Every command keeps it so, follows no handle that stands for nothing, takes no more bytes
away than there are, and does what it does on a cache without an index (`perform_plain`).
-/

namespace QueryService

theorem filter_split {β γ : Type} [BEq γ] [LawfulBEq γ] {f : β → γ} {b : β} {before after : List β}
    (distinct : ((before ++ b :: after).map f).Nodup) :
    (before ++ b :: after).filter (f · != f b) = before ++ after := by
  rw [List.map_append, List.map_cons, List.nodup_middle, List.nodup_cons, ← List.map_append] at distinct
  have others : (before ++ after).filter (f · != f b) = before ++ after := by
    refine List.filter_eq_self.mpr fun other listed => ?_
    rw [bne_iff_ne]
    exact fun same => distinct.1 (List.mem_map.mpr ⟨other, listed, same⟩)
  rw [List.filter_append, List.filter_cons, if_neg (by simp), ← List.filter_append, others]

namespace IndexedCache

variable {α : Type} {x : IndexedCache α} {node moved : CacheNode α} {before after order : List (CacheNode α)}
  {index : List (Bytes × Nat)} {next : Nat} {key : Bytes}

/-! ### What the index holds -/

/-- The pair by which an index leads to a node. -/
def link (node : CacheNode α) : Bytes × Nat := (node.entry.key, node.handle)

/-- The index leads to every node by its key, and to nothing else. Keys and handles are given once. -/
structure Links (order : List (CacheNode α)) (index : List (Bytes × Nat)) (next : Nat) : Prop where
  index : index.Perm (order.map link)
  keys : (order.map (·.entry.key)).Nodup
  handles : (order.map (·.handle)).Nodup
  below : ∀ node ∈ order, node.handle < next

namespace Links

theorem nil (next : Nat) : Links (α := α) [] [] next := ⟨.nil, .nil, .nil, nofun⟩

theorem length (links : Links order index next) : index.length = order.length := by
  rw [links.index.length_eq, List.length_map]

variable (links : Links (before ++ node :: after) index next)
include links

theorem remove : Links (before ++ after) (index.filter (·.1 != node.entry.key)) next where
  index := by
    have kept := links.index.filter (·.1 != node.entry.key)
    rw [List.filter_map] at kept
    rw [← filter_split links.keys]
    exact kept
  keys := by
    have part : (before ++ after).Sublist (before ++ node :: after) := (List.sublist_cons_self _ _).append_left _
    exact links.keys.sublist (part.map _)
  handles := by
    have part : (before ++ after).Sublist (before ++ node :: after) := (List.sublist_cons_self _ _).append_left _
    exact links.handles.sublist (part.map _)
  below other listed := by
    refine links.below other ?_
    rw [List.mem_append] at listed ⊢
    exact listed.imp_right (List.mem_cons_of_mem node)

end Links

/-! ### Finding entries -/

/-- Where the entry of a key stands, how it is reached, and what is left without it. -/
structure Found (x : IndexedCache α) (key : Bytes) (before : List (CacheNode α)) (node : CacheNode α)
    (after : List (CacheNode α)) : Prop where
  order : x.order = before ++ node :: after
  own : node.entry.key = key
  indexed : x.handle? key = some node.handle
  reached : x.node? node.handle = some node
  others : x.others node.handle = before ++ after
  without : Cache.without key x.plain.entries = (before ++ after).map (·.entry)

/-- The bytes counted are those of the entries. -/
def Counted (x : IndexedCache α) : Prop := x.plain.bytes = (x.plain.entries.map (·.weight)).sum

theorem Found.bytesLess (found : x.Found key before node after) (counted : x.Counted) :
    x.bytesLess node.entry.weight = some (x.bytes - node.entry.weight) := by
  have listed : node.entry.weight ∈ x.plain.entries.map (·.weight) := by
    rw [plain, found.order]
    simp
  have part : node.entry.weight ≤ x.bytes := by
    show _ ≤ x.plain.bytes
    rw [counted]
    exact List.le_sum_of_mem listed
  rw [IndexedCache.bytesLess, if_pos part]

theorem run_concat (x : IndexedCache α) (history : List (Cache.Command α)) (command : Cache.Command α) :
    x.run (history ++ [command]) = (x.run history).bind fun y => (y.perform command).map (·.1) := by
  simp only [run, List.foldlM_append, List.foldlM_cons, List.foldlM_nil, bind_pure]
  rfl

end IndexedCache
end QueryService
