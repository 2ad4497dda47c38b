import QueryService.Timer.Scheduler

/-!
# Callbacks that use the timers

A callback may itself schedule, cancel and trigger timers, set the clock and run what is due. Such a
program always ends: a command either becomes part of a timer or is used up, and a timer fires once.
-/

namespace QueryService
namespace Scheduler

/-- The commands of a program. A callback reports its label, if it has one, and then performs its body. -/
inductive Command where
  | setClock (time : Int)
  | schedule (delay : Int) (label : Option Bytes) (body : List Command)
  | cancel (id : Nat)
  | isPending (id : Nat)
  | run
  | trigger (key : Bytes) (label : Option Bytes) (body : List Command)
  | cancelKey (key : Bytes)
  | cancelKeys
  | isKeyPending (key : Bytes)
  | setDelay (delay : Int)
  deriving Repr

mutual

/-- What a command has in store: itself, and what its callback will do. -/
def Command.weight : Command → Nat
  | .schedule _ _ body | .trigger _ _ body => 2 + Command.totalWeight body
  | _ => 1

def Command.totalWeight : List Command → Nat
  | [] => 0
  | c :: rest => c.weight + Command.totalWeight rest

end

structure Callback where
  label : Option Bytes
  body : List Command
  deriving Repr

def Callback.weight (c : Callback) : Nat := 1 + Command.totalWeight c.body

inductive Reply where
  | done
  | number (value : Int)
  | flag (value : Bool)
  deriving DecidableEq, Repr

/-- `fired` holds the labels reported, and `lastRun` the number of timers that the run ended last fired. -/
structure Running where
  scheduler : Scheduler Bytes Callback
  fired : List Bytes := []
  lastRun : Nat := 0

namespace Running

/-- A command other than `run`, which does not come back at once. -/
def perform (r : Running) : Command → Running × Reply
  | .setClock time => ({ r with scheduler := { r.scheduler with now := time } }, .number time)
  | .schedule delay label body =>
    let (id, scheduler) := r.scheduler.schedule delay ⟨label, body⟩
    ({ r with scheduler }, .number id)
  | .cancel id =>
    let (cancelled, scheduler) := r.scheduler.cancel id
    ({ r with scheduler }, .flag cancelled)
  | .isPending id => (r, .flag (r.scheduler.queue.isPending id))
  | .run => (r, .done)
  | .trigger key label body =>
    ({ r with scheduler := r.scheduler.trigger key ⟨label, body⟩ }, .done)
  | .cancelKey key =>
    let (cancelled, scheduler) := r.scheduler.cancelKey key
    ({ r with scheduler }, .flag cancelled)
  | .cancelKeys => ({ r with scheduler := r.scheduler.cancelKeys }, .done)
  | .isKeyPending key => (r, .flag (r.scheduler.isKeyPending key))
  | .setDelay delay => ({ r with scheduler := { r.scheduler with delay } }, .number delay)

/-- What is still to be done: the commands of a callback, or the timers that a run found due. -/
inductive Frame where
  | commands (rest : List Command)
  | firing (due : List Nat) (count : Nat)

def Frame.weight : Frame → Nat
  | .commands rest => Command.totalWeight rest
  | .firing _ _ => 0

def Frame.length : Frame → Nat
  | .commands _ => 1
  | .firing due _ => 1 + due.length

def totalWeight : List (Timer (Job Bytes Callback)) → Nat
  | [] => 0
  | t :: rest => t.action.action.weight + totalWeight rest

def queueWeight (queue : TimerQueue (Job Bytes Callback)) : Nat := totalWeight queue.timers

def Frame.total (size : Frame → Nat) : List Frame → Nat
  | [] => 0
  | f :: rest => size f + Frame.total size rest

/-- What is in store, on the way and in timers. -/
def weight (r : Running) (frames : List Frame) : Nat :=
  Frame.total Frame.weight frames + queueWeight r.scheduler.queue

theorem totalWeight_append (a b : List (Timer (Job Bytes Callback))) :
    totalWeight (a ++ b) = totalWeight a + totalWeight b := by
  induction a with
  | nil => simp [totalWeight]
  | cons t rest ih => simp [totalWeight, ih, Nat.add_assoc]

theorem queueWeight_remove_le (queue : TimerQueue (Job Bytes Callback)) (id : Nat) :
    queueWeight (queue.remove id) ≤ queueWeight queue := by
  simp only [queueWeight, TimerQueue.remove]
  induction queue.timers with
  | nil => exact Nat.le_refl _
  | cons t rest ih => by_cases h : t.id = id <;> simp [h, totalWeight] <;> omega

theorem queueWeight_removeAll_le (keyed : List (Bytes × Nat))
    (queue : TimerQueue (Job Bytes Callback)) :
    queueWeight (keyed.foldl (fun queue entry => queue.remove entry.2) queue) ≤ queueWeight queue := by
  induction keyed generalizing queue with
  | nil => simp
  | cons entry rest ih => exact Nat.le_trans (ih _) (queueWeight_remove_le _ _)

theorem queueWeight_cancelKey_le (s : Scheduler Bytes Callback) (key : Bytes) :
    queueWeight (s.cancelKey key).2.queue ≤ queueWeight s.queue := by
  unfold Scheduler.cancelKey
  split
  · simp
  · exact queueWeight_remove_le _ _

theorem queueWeight_trigger_le (s : Scheduler Bytes Callback) (key : Bytes) (c : Callback) :
    queueWeight (s.trigger key c).queue ≤ queueWeight s.queue + c.weight := by
  have := queueWeight_cancelKey_le s key
  simp only [queueWeight, Scheduler.trigger, TimerQueue.schedule, totalWeight_append, totalWeight] at *
  omega

/-- A timer that is taken out leaves its weight behind. -/
theorem queueWeight_take {s s' : Scheduler Bytes Callback} {id : Nat} {c : Callback}
    (taken : s.take id = some (c, s')) : queueWeight s'.queue + c.weight ≤ queueWeight s.queue := by
  obtain ⟨timer, found, same⟩ := Option.map_eq_some_iff.mp taken
  obtain ⟨rfl, rfl⟩ := Prod.mk.inj same
  simp only [queueWeight, TimerQueue.find?, TimerQueue.remove] at *
  revert found
  induction s.queue.timers with
  | nil => simp
  | cons t rest ih =>
    intro found
    have shorter := queueWeight_remove_le ⟨rest, 0⟩ id
    simp only [queueWeight, TimerQueue.remove] at shorter
    by_cases h : t.id = id
    · obtain rfl : t = timer := by simpa [h] using found
      simp [h, totalWeight]
      omega
    · have := ih (by simpa [h] using found)
      simp [h, totalWeight] at *
      omega

/-- A command brings into the queue less than it weighs. -/
theorem perform_weight (r : Running) (c : Command) :
    queueWeight (r.perform c).1.scheduler.queue < queueWeight r.scheduler.queue + c.weight := by
  cases c with
  | schedule delay label body =>
    simp only [perform, Scheduler.schedule, TimerQueue.schedule, queueWeight, totalWeight_append,
      totalWeight, Command.weight, Callback.weight]
    omega
  | trigger key label body =>
    have := queueWeight_trigger_le r.scheduler key ⟨label, body⟩
    simp only [perform, Command.weight, Callback.weight] at *
    omega
  | cancel id =>
    have := queueWeight_remove_le r.scheduler.queue id
    simp only [perform, Scheduler.cancel, TimerQueue.cancel, Command.weight]
    omega
  | cancelKey key =>
    have := queueWeight_cancelKey_le r.scheduler key
    simp only [perform, Command.weight]
    omega
  | cancelKeys =>
    have := queueWeight_removeAll_le r.scheduler.keyed r.scheduler.queue
    simp only [perform, Scheduler.cancelKeys, Command.weight]
    omega
  | _ => simp [perform, Command.weight]

/-- One step: a command, the firing of one timer, or the end of a frame. `frame` is the innermost. -/
def next (r : Running) (frame : Frame) (outer : List Frame) : Running × List Frame :=
  match frame with
  | .commands [] => (r, outer)
  | .commands (.run :: rest) => (r, .firing r.scheduler.due 0 :: .commands rest :: outer)
  | .commands (c :: rest) => ((r.perform c).1, .commands rest :: outer)
  | .firing [] count => ({ r with lastRun := count }, outer)
  | .firing (id :: due) count =>
    match r.scheduler.take id with
    | none => (r, .firing due count :: outer)
    | some (callback, scheduler) =>
      ({ r with scheduler, fired := r.fired ++ callback.label.toList },
        .commands callback.body :: .firing due (count + 1) :: outer)

/-- A step that leaves as much in store shortens the frames. -/
theorem next_decreases (r : Running) (frame : Frame) (outer : List Frame) :
    Prod.Lex (· < ·) (· < ·)
      ((r.next frame outer).1.weight (r.next frame outer).2,
        Frame.total Frame.length (r.next frame outer).2)
      (r.weight (frame :: outer), Frame.total Frame.length (frame :: outer)) := by
  rw [Prod.lex_def]
  fun_cases next r frame outer with
  | case1 => simp [weight, Frame.total, Frame.weight, Frame.length, Command.totalWeight]
  | case2 => simp [weight, Frame.total, Frame.weight, Command.totalWeight, Command.weight]
  | case3 c =>
    have := r.perform_weight c
    simp [weight, Frame.total, Frame.weight, Command.totalWeight] at *
    omega
  | case4 => simp [weight, Frame.total, Frame.weight, Frame.length]
  | case5 => simp [weight, Frame.total, Frame.weight, Frame.length]
  | case6 id due count callback scheduler taken =>
    have := queueWeight_take taken
    simp [weight, Frame.total, Frame.weight, Callback.weight] at *
    omega

/-- Does what the frames still hold, the innermost first. -/
def drain (r : Running) : List Frame → Running
  | [] => r
  | frame :: outer => (r.next frame outer).1.drain (r.next frame outer).2
termination_by frames => (r.weight frames, Frame.total Frame.length frames)
decreasing_by exact r.next_decreases frame outer

/-- Performs a command from outside. A run answers with the number of timers that it fired. -/
def command (r : Running) (c : Command) : Running × Reply :=
  let r := { r with fired := [] }
  match c with
  | .run =>
    let r := r.drain [.firing r.scheduler.due 0]
    (r, .number r.lastRun)
  | c => r.perform c

end Running
end Scheduler
end QueryService
