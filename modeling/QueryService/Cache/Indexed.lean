import QueryService.Cache

/-!
# Caches with an index

The same cache laid out for fast access. The entries stand in the order of use in nodes, each under a
handle that stays with it when it moves, and an index leads from a key to the handle of its entry.
Nothing in the layout keeps the two in step, and the bytes are counted by adding and taking away: to
follow a handle that stands for no node, or to take away more than was counted, has no result.
-/

namespace QueryService

structure CacheNode (α : Type) where
  handle : Nat
  entry : CacheEntry α
  deriving DecidableEq, Repr

structure IndexedCache (α : Type) where
  policy : CachePolicy := {}
  weigh : Bytes → α → Nat
  /-- The latest used comes first. -/
  order : List (CacheNode α) := []
  index : List (Bytes × Nat) := []
  nextHandle : Nat := 0
  bytes : Nat := 0
  hits : Nat := 0
  misses : Nat := 0
  evictions : Nat := 0

namespace IndexedCache

variable {α : Type}

def fresh (policy : CachePolicy) (weigh : Bytes → α → Nat) : IndexedCache α := { policy, weigh }

def size (c : IndexedCache α) : Nat := c.index.length

def handle? (c : IndexedCache α) (key : Bytes) : Option Nat := (c.index.find? (·.1 == key)).map (·.2)

def node? (c : IndexedCache α) (handle : Nat) : Option (CacheNode α) := c.order.find? (·.handle == handle)

/-- The nodes but for the one with this handle. -/
def others (c : IndexedCache α) (handle : Nat) : List (CacheNode α) := c.order.filter (·.handle != handle)

/-- The index without a key. -/
def unlink (c : IndexedCache α) (key : Bytes) : List (Bytes × Nat) := c.index.filter (·.1 != key)

/-- The count of bytes when some are taken away. -/
def bytesLess (c : IndexedCache α) (weight : Nat) : Option Nat :=
  if weight ≤ c.bytes then some (c.bytes - weight) else none

def overLimit (c : IndexedCache α) : Bool :=
  c.policy.maxEntries != 0 && c.policy.maxEntries < c.size ||
    c.policy.maxBytes != 0 && c.policy.maxBytes < c.bytes

/-- Gives up the last nodes until the limits hold or one node is left. -/
def evict (c : IndexedCache α) : Option (IndexedCache α) :=
  if 1 < c.order.length ∧ c.overLimit then do
    let oldest ← c.order.getLast?
    let bytes ← c.bytesLess oldest.entry.weight
    evict { c with
      order := c.order.dropLast
      index := c.unlink oldest.entry.key
      bytes
      evictions := c.evictions + 1 }
  else some c
termination_by c.order.length
decreasing_by simp only [List.length_dropLast]; omega

def get (c : IndexedCache α) (key : Bytes) : Option (Option α × IndexedCache α) :=
  match c.handle? key with
  | none => some (none, { c with misses := c.misses + 1 })
  | some handle => do
    let node ← c.node? handle
    return (some node.entry.value, { c with order := node :: c.others handle, hits := c.hits + 1 })

def contains (c : IndexedCache α) (key : Bytes) : Bool := (c.handle? key).isSome

/-- A key that is there keeps its node, which gets the new value and comes first. -/
def put (c : IndexedCache α) (key : Bytes) (value : α) : Option (IndexedCache α) :=
  let weight := c.weigh key value
  match c.handle? key with
  | some handle => do
    let node ← c.node? handle
    let bytes ← c.bytesLess node.entry.weight
    evict { c with
      order := { node with entry := { node.entry with value, weight } } :: c.others handle
      bytes := bytes + weight }
  | none =>
    evict { c with
      order := ⟨c.nextHandle, ⟨key, value, weight⟩⟩ :: c.order
      index := (key, c.nextHandle) :: c.index
      nextHandle := c.nextHandle + 1
      bytes := c.bytes + weight }

def erase (c : IndexedCache α) (key : Bytes) : Option (IndexedCache α) :=
  match c.handle? key with
  | none => some c
  | some handle => do
    let node ← c.node? handle
    let bytes ← c.bytesLess node.entry.weight
    return { c with order := c.others handle, index := c.unlink key, bytes }

def clear (c : IndexedCache α) : IndexedCache α := { c with order := [], index := [], bytes := 0 }

def setPolicy (c : IndexedCache α) (policy : CachePolicy) : Option (IndexedCache α) := evict { c with policy }

def perform (c : IndexedCache α) : Cache.Command α → Option (IndexedCache α × Cache.Reply α)
  | .put key value => (c.put key value).map (·, .done)
  | .get key => (c.get key).map fun (found, c) => (c, .value found)
  | .contains key => some (c, .flag (c.contains key))
  | .erase key => (c.erase key).map (·, .done)
  | .clear => some (c.clear, .done)
  | .setPolicy policy => (c.setPolicy policy).map (·, .done)

def run (c : IndexedCache α) (commands : List (Cache.Command α)) : Option (IndexedCache α) :=
  commands.foldlM (fun c command => (c.perform command).map (·.1)) c

/-- The cache without its index and its handles. -/
def plain (c : IndexedCache α) : Cache α :=
  { policy := c.policy
    weigh := c.weigh
    entries := c.order.map (·.entry)
    bytes := c.bytes
    hits := c.hits
    misses := c.misses
    evictions := c.evictions }

end IndexedCache
end QueryService
