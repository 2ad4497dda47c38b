import QueryService.Text.Bytes

/-!
# Bounded caches

A cache keeps its entries in order of use, the latest first, and gives up the last ones while it is
over its limits. The newest entry always stays, however heavy.
-/

namespace QueryService

/-- Limits on the number of entries and on their weight in bytes; zero means no limit. -/
structure CachePolicy where
  maxEntries : Nat := 256
  maxBytes : Nat := 4 * 1024 * 1024
  deriving DecidableEq, Repr

structure CacheEntry (α : Type) where
  key : Bytes
  value : α
  weight : Nat
  deriving DecidableEq, Repr

/-- `bytes` is kept as a running sum of the weights. -/
structure Cache (α : Type) where
  policy : CachePolicy := {}
  weigh : Bytes → α → Nat
  entries : List (CacheEntry α) := []
  bytes : Nat := 0
  hits : Nat := 0
  misses : Nat := 0
  evictions : Nat := 0

namespace Cache

variable {α : Type}

def size (c : Cache α) : Nat := c.entries.length

def find? (c : Cache α) (key : Bytes) : Option (CacheEntry α) := c.entries.find? (·.key == key)

def contains (c : Cache α) (key : Bytes) : Bool := (c.find? key).isSome

def without (key : Bytes) (entries : List (CacheEntry α)) : List (CacheEntry α) :=
  entries.filter (·.key != key)

def overLimit (c : Cache α) : Bool :=
  c.policy.maxEntries != 0 && c.policy.maxEntries < c.size ||
    c.policy.maxBytes != 0 && c.policy.maxBytes < c.bytes

/-- Gives up the entry used longest ago. -/
def dropOldest (c : Cache α) : Cache α :=
  { c with
    entries := c.entries.dropLast
    bytes := c.bytes - (c.entries.getLast?.map (·.weight)).getD 0
    evictions := c.evictions + 1 }

/-- Gives up entries until the limits hold or one entry is left. -/
def evict (c : Cache α) : Cache α :=
  if 1 < c.size ∧ c.overLimit then c.dropOldest.evict else c
termination_by c.size
decreasing_by simp only [size, dropOldest, List.length_dropLast] at *; omega

/-- The value of a key. Finding it makes it the latest used. -/
def get (c : Cache α) (key : Bytes) : Option α × Cache α :=
  match c.find? key with
  | none => (none, { c with misses := c.misses + 1 })
  | some entry =>
    (some entry.value, { c with entries := entry :: without key c.entries, hits := c.hits + 1 })

/-- Sets the value of a key, which becomes the latest used. -/
def put (c : Cache α) (key : Bytes) (value : α) : Cache α :=
  let weight := c.weigh key value
  let old := ((c.find? key).map (·.weight)).getD 0
  evict { c with
    entries := ⟨key, value, weight⟩ :: without key c.entries
    bytes := c.bytes - old + weight }

def erase (c : Cache α) (key : Bytes) : Cache α :=
  match c.find? key with
  | none => c
  | some entry => { c with entries := without key c.entries, bytes := c.bytes - entry.weight }

/-- Forgets the entries but not the counts of hits, misses and evictions. -/
def clear (c : Cache α) : Cache α := { c with entries := [], bytes := 0 }

def setPolicy (c : Cache α) (policy : CachePolicy) : Cache α := evict { c with policy }

/-! ### Histories -/

inductive Command (α : Type) where
  | put (key : Bytes) (value : α)
  | get (key : Bytes)
  | contains (key : Bytes)
  | erase (key : Bytes)
  | clear
  | setPolicy (policy : CachePolicy)
  deriving DecidableEq, Repr

inductive Reply (α : Type) where
  | done
  | value (found : Option α)
  | flag (value : Bool)
  deriving DecidableEq, Repr

def perform (c : Cache α) : Command α → Cache α × Reply α
  | .put key value => (c.put key value, .done)
  | .get key => let (found, c) := c.get key; (c, .value found)
  | .contains key => (c, .flag (c.contains key))
  | .erase key => (c.erase key, .done)
  | .clear => (c.clear, .done)
  | .setPolicy policy => (c.setPolicy policy, .done)

def run (c : Cache α) (commands : List (Command α)) : Cache α :=
  commands.foldl (fun c command => (c.perform command).1) c

end Cache

/-- How the weight of an entry with a text value is reckoned. -/
inductive TextWeight where
  | key
  | keyAndValue
  | value
  | one
  deriving DecidableEq, Repr

def TextWeight.of (weight : TextWeight) (key value : Bytes) : Nat :=
  match weight with
  | .key => key.length
  | .keyAndValue => key.length + value.length
  | .value => value.length
  | .one => 1

end QueryService
