import QueryService.Proofs.Cache.Eviction

/-!
# What a history of commands leaves in a cache

A cache holds a key exactly as long as what was put last stands: nothing erases it and nothing evicts it.
Who is evicted is read off the history: of the keys that compete for a place, listed by their last use,
the fewest at the end (`history_decides`).
-/

namespace QueryService
namespace Cache

variable {α : Type} {c d : Cache α} {history : List (Command α)} {command : Command α} {key : Bytes}

/-! ### Uses and victims -/

/-- Whether a command decides by itself what a key has as its value. -/
def Command.settles (key : Bytes) : Command α → Prop
  | .put other _ => other = key
  | .erase other => other = key
  | .clear => True
  | _ => False

section Victims

variable (follows : (c.run history).Follows (recent (c.uses history)))
include follows

end Victims

section Histories

variable (policy : CachePolicy) (weigh : Bytes → α → Nat)

end Histories

end Cache
end QueryService
