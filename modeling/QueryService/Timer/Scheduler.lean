import QueryService.Timer.Queue

/-!
# Debounced timers

A scheduler owns a clock, a timer queue and, for each key, the number of the last timer triggered for
it. Triggering a key again cancels that timer, so an action runs only after its key has been quiet.
-/

namespace QueryService

/-- An action, with the key it was triggered for. -/
structure Job (κ α : Type) where
  key : Option κ
  action : α
  deriving DecidableEq, Repr

structure Scheduler (κ α : Type) where
  now : Int := 0
  delay : Int
  queue : TimerQueue (Job κ α) := {}
  keyed : List (κ × Nat) := []
  deriving DecidableEq, Repr

namespace Scheduler

variable {κ α : Type} [DecidableEq κ]

def schedule (s : Scheduler κ α) (delay : Int) (action : α) : Nat × Scheduler κ α :=
  let (id, queue) := s.queue.schedule s.now delay ⟨none, action⟩
  (id, { s with queue })

def cancel (s : Scheduler κ α) (id : Nat) : Bool × Scheduler κ α :=
  let (cancelled, queue) := s.queue.cancel id
  (cancelled, { s with queue })

def timerOf? (s : Scheduler κ α) (key : κ) : Option Nat := s.keyed.lookup key

def forget (s : Scheduler κ α) (key : κ) : Scheduler κ α :=
  { s with keyed := s.keyed.filter (·.1 ≠ key) }

/-- The answer is false where the timer of the key was cancelled by its number before. -/
def cancelKey (s : Scheduler κ α) (key : κ) : Bool × Scheduler κ α :=
  match s.timerOf? key with
  | none => (false, s)
  | some id =>
    let (cancelled, s) := s.cancel id
    (cancelled, s.forget key)

def cancelKeys (s : Scheduler κ α) : Scheduler κ α :=
  { s with queue := s.keyed.foldl (fun queue entry => queue.remove entry.2) s.queue, keyed := [] }

/-- Starts the quiet period of a key anew. -/
def trigger (s : Scheduler κ α) (key : κ) (action : α) : Scheduler κ α :=
  let (_, s) := s.cancelKey key
  let (id, queue) := s.queue.schedule s.now s.delay ⟨some key, action⟩
  { s with queue, keyed := (key, id) :: s.keyed }

def isKeyPending (s : Scheduler κ α) (key : κ) : Bool := (s.timerOf? key).any s.queue.isPending

def pendingKeys (s : Scheduler κ α) : Nat := s.keyed.countP fun entry => s.queue.isPending entry.2

/-- The numbers of the timers that a run at this moment fires, in order. -/
def due (s : Scheduler κ α) : List Nat := s.queue.due s.now

/-- Takes a timer out to fire it, unless it was cancelled since it was found due. Its key is no longer
waiting then. -/
def take (s : Scheduler κ α) (id : Nat) : Option (α × Scheduler κ α) :=
  (s.queue.find? id).map fun timer =>
    (timer.action.action,
      { s with
        queue := s.queue.remove id
        keyed := s.keyed.filter fun entry => some entry.1 ≠ timer.action.key })

end Scheduler
end QueryService
