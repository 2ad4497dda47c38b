import QueryService.Text.Bytes

/-!
# Timers

A queue holds timers until they fire or are cancelled. Times are milliseconds on a clock that the
caller reads; what a timer does when it fires is its action.
-/

namespace QueryService

structure Timer (α : Type) where
  id : Nat
  deadline : Int
  action : α
  deriving DecidableEq, Repr

/-- The timers in the order of their numbers; `nextId` has never been given to a timer. -/
structure TimerQueue (α : Type) where
  timers : List (Timer α) := []
  nextId : Nat := 1
  deriving DecidableEq, Repr

namespace TimerQueue

variable {α : Type}

def pending (q : TimerQueue α) : Nat := q.timers.length

def find? (q : TimerQueue α) (id : Nat) : Option (Timer α) := q.timers.find? (·.id == id)

def isPending (q : TimerQueue α) (id : Nat) : Bool := (q.find? id).isSome

def schedule (q : TimerQueue α) (now delay : Int) (action : α) : Nat × TimerQueue α :=
  (q.nextId, { timers := q.timers ++ [⟨q.nextId, now + delay, action⟩], nextId := q.nextId + 1 })

def remove (q : TimerQueue α) (id : Nat) : TimerQueue α :=
  { q with timers := q.timers.filter (·.id != id) }

/-- Whether there was a timer to cancel is part of the answer. -/
def cancel (q : TimerQueue α) (id : Nat) : Bool × TimerQueue α := (q.isPending id, q.remove id)

def nextDeadline (q : TimerQueue α) : Option Int := (q.timers.map (·.deadline)).min?

/-- By deadline, and by number among equal deadlines. -/
def firesBefore (a b : Timer α) : Bool :=
  a.deadline < b.deadline || a.deadline == b.deadline && a.id < b.id

def insertByDeadline (t : Timer α) : List (Timer α) → List (Timer α)
  | [] => [t]
  | other :: rest =>
    if firesBefore t other then t :: other :: rest else other :: insertByDeadline t rest

/-- The numbers of the timers due at a time, in the order in which they fire. -/
def due (q : TimerQueue α) (now : Int) : List Nat :=
  ((q.timers.filter (·.deadline ≤ now)).foldr insertByDeadline []).map (·.id)

end TimerQueue
end QueryService
