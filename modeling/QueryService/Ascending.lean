/-!
# Ascending lists

Finite sets, written as lists in strictly ascending order.
-/

namespace QueryService.Ascending

variable {α : Type} [LT α] [DecidableLT α] [DecidableEq α]

def insert (x : α) : List α → List α
  | [] => [x]
  | y :: rest =>
    if x < y then x :: y :: rest
    else if x = y then y :: rest
    else y :: insert x rest

/-- The members of a list, each once and in ascending order. -/
def ofList (items : List α) : List α := items.foldr insert []

end QueryService.Ascending
