import QueryService.Proofs.Timer.Waiting
import QueryService.Timer.Program

/-!
# What a program has done

A program moves step by step (`Moment.after`), and each step that can be told from outside leaves an event in the
log: a command, the two ends of a run, a timer that fires. Every program comes to its end, with the scheduler that
its commands leave when they come one by one (`session_scheduler`, `finishes`).
-/

namespace QueryService
namespace Scheduler
namespace Running

/-- What a step does. A command and the two ends of a run come with the scheduler at that moment; `depth` counts
the runs that are under way around this one. -/
inductive Event where
  | performed (s : Scheduler Bytes Callback) (c : Command)
  | began (depth : Nat) (s : Scheduler Bytes Callback)
  | fired (depth : Nat) (t : Timer (Job Bytes Callback))
  | ended (depth : Nat) (s : Scheduler Bytes Callback)

namespace Event

/-- The timer that joins the queue, with the number that it is given. -/
def scheduled? : Event → Option (Timer (Job Bytes Callback))
  | .performed s (.schedule delay label body) =>
    some ⟨(s.schedule delay ⟨label, body⟩).1, s.now + delay, ⟨none, ⟨label, body⟩⟩⟩
  | .performed s (.trigger key label body) =>
    some ⟨s.queue.nextId, s.now + s.delay, ⟨some key, ⟨label, body⟩⟩⟩
  | _ => none

/-- Whether a timer is cancelled, by its number or for its key, and the cancel finds it waiting. -/
def cancels (id : Nat) : Event → Bool
  | .performed s (.cancel other) => other == id && (s.cancel other).1
  | .performed s (.cancelKey key) | .performed s (.trigger key _ _) =>
    s.timerOf? key == some id && (s.cancelKey key).1
  | .performed s .cancelKeys => s.keyed.any (·.2 == id) && s.queue.isPending id
  | _ => false

def fires (id : Nat) : Event → Bool
  | .fired _ t => t.id == id
  | _ => false

/-- Whether a run at this depth begins or ends. -/
def bounds (depth : Nat) : Event → Bool
  | .began d _ | .ended d _ => d == depth
  | _ => false

end Event

namespace Frame

def isFiring : Frame → Bool
  | .firing _ _ => true
  | .commands _ => false

def depth (frames : List Frame) : Nat := frames.countP isFiring

end Frame

/-- What the next step does, if it can be told from outside. -/
def event? (r : Running) (frame : Frame) (outer : List Frame) : Option Event :=
  match frame with
  | .commands [] => none
  | .commands (.run :: _) => some (.began (Frame.depth outer) r.scheduler)
  | .commands (c :: _) => some (.performed r.scheduler c)
  | .firing [] _ => some (.ended (Frame.depth outer) r.scheduler)
  | .firing (id :: _) _ => (r.scheduler.queue.find? id).map (.fired (Frame.depth outer))

/-- Each kind of step: the frame that it is taken in, the event that it leaves, and what comes of it. -/
inductive Step (r : Running) (outer : List Frame) : Frame → Option Event → Running → List Frame → Prop where
  | done : Step r outer (.commands []) none r outer
  | began (rest : List Command) : Step r outer (.commands (.run :: rest)) (some (.began (Frame.depth outer) r.scheduler))
      r (.firing r.scheduler.due 0 :: .commands rest :: outer)
  | performed (c : Command) (rest : List Command) : Step r outer (.commands (c :: rest)) (some (.performed r.scheduler c))
      (r.perform c).1 (.commands rest :: outer)
  | ended (count : Nat) : Step r outer (.firing [] count) (some (.ended (Frame.depth outer) r.scheduler))
      { r with lastRun := count } outer
  | skipped (id : Nat) (due : List Nat) (count : Nat) (gone : r.scheduler.queue.isPending id = false) :
      Step r outer (.firing (id :: due) count) none r (.firing due count :: outer)
  | fired (t : Timer (Job Bytes Callback)) (due : List Nat) (count : Nat) (scheduler : Scheduler Bytes Callback)
      (waits : t ∈ r.scheduler.queue.timers) (taken : r.scheduler.take t.id = some (t.action.action, scheduler)) :
      Step r outer (.firing (t.id :: due) count) (some (.fired (Frame.depth outer) t))
        { r with scheduler, fired := r.fired ++ t.action.action.label.toList }
        (.commands t.action.action.body :: .firing due (count + 1) :: outer)

theorem step_next (r : Running) (frame : Frame) (outer : List Frame) :
    Step r outer frame (r.event? frame outer) (r.next frame outer).1 (r.next frame outer).2 := by
  match frame with
  | .commands [] => exact .done
  | .commands (c :: rest) =>
    by_cases run : c = .run
    · subst run
      exact .began rest
    · have event : r.event? (.commands (c :: rest)) outer = some (.performed r.scheduler c) := by
        cases c <;> first | rfl | contradiction
      have next : r.next (.commands (c :: rest)) outer = ((r.perform c).1, .commands rest :: outer) := by
        cases c <;> first | rfl | contradiction
      rw [event, next]
      exact .performed c rest
  | .firing [] count => exact .ended count
  | .firing (id :: due) count =>
    cases found : r.scheduler.queue.find? id with
    | none =>
      have missing : r.scheduler.take id = none := by rw [take, found, Option.map_none]
      rw [event?, next, found, missing]
      exact .skipped id due count (by rw [TimerQueue.isPending, found, Option.isSome_none])
    | some t =>
      obtain rfl : t.id = id := by simpa using List.find?_some found
      have waits := List.mem_of_find?_eq_some found
      cases taken : r.scheduler.take t.id with
      | none => exact absurd rfl (take_none taken t waits)
      | some pair =>
        obtain ⟨action, scheduler⟩ := pair
        rw [event?, next, found, taken]
        rw [take, found] at taken
        cases taken
        exact .fired t due count _ waits (by rw [take, found, Option.map_some])

/-- A program on its way, with what it has done. -/
structure Moment where
  running : Running
  frames : List Frame
  log : List Event := []

namespace Moment

def start (delay : Int) (commands : List Command) : Moment :=
  { running := { scheduler := { delay } }, frames := [.commands commands] }

def next (m : Moment) : Moment :=
  match m.frames with
  | [] => m
  | frame :: outer =>
    { running := (m.running.next frame outer).1
      frames := (m.running.next frame outer).2
      log := m.log ++ (m.running.event? frame outer).toList }

def after (m : Moment) : Nat → Moment
  | 0 => m
  | n + 1 => (m.after n).next

theorem after_succ (m : Moment) (n : Nat) : m.after (n + 1) = m.next.after n := by
  induction n with
  | zero => rfl
  | succ n ih => rw [after, ih, after]

theorem next_cases (m : Moment) : m.next = m ∨ ∃ frame outer event, m.frames = frame :: outer ∧
    Step m.running outer frame event m.next.running m.next.frames ∧ m.next.log = m.log ++ event.toList := by
  obtain ⟨r, frames, log⟩ := m
  cases frames with
  | nil => exact Or.inl rfl
  | cons frame outer => exact Or.inr ⟨frame, outer, r.event? frame outer, rfl, step_next r frame outer, rfl⟩

end Moment

/-- Where an event stands in a log that has grown by one. -/
theorem split_concat {log before rest : List Event} {last e : Event} (split : log ++ [last] = before ++ e :: rest) :
    (before = log ∧ e = last ∧ rest = []) ∨ ∃ between, rest = between ++ [last] ∧ log = before ++ e :: between := by
  rcases List.eq_nil_or_concat rest with rfl | ⟨between, other, rfl⟩
  · obtain ⟨same, tail⟩ := List.append_inj' split rfl
    exact Or.inl ⟨same.symm, (List.cons.inj tail).1.symm, rfl⟩
  · rw [List.concat_eq_append, ← List.cons_append, ← List.append_assoc] at split
    obtain ⟨same, tail⟩ := List.append_inj' split rfl
    rw [List.concat_eq_append, ← (List.cons.inj tail).1]
    exact Or.inr ⟨between, rfl, same⟩

/-! ### The end of a program -/

theorem next_append (r : Running) (frame : Frame) (inner outer : List Frame) :
    r.next frame (inner ++ outer) = ((r.next frame inner).1, (r.next frame inner).2 ++ outer) := by
  fun_cases next r frame inner <;> simp_all [next]

theorem drain_append (r : Running) (inner outer : List Frame) :
    r.drain (inner ++ outer) = (r.drain inner).drain outer := by
  induction r, inner using drain.induct with
  | case1 r => rw [List.nil_append, drain]
  | case2 r frame inner ih => rw [List.cons_append, drain, drain, next_append, ih]

section Session

variable {r r' : Running}

theorem perform_congr (same : r.scheduler = r'.scheduler) (c : Command) :
    (r.perform c).1.scheduler = (r'.perform c).1.scheduler := by
  cases c <;> simp only [perform, same]

theorem next_congr (same : r.scheduler = r'.scheduler) (frame : Frame) (outer : List Frame) :
    (r.next frame outer).1.scheduler = (r'.next frame outer).1.scheduler ∧
      (r.next frame outer).2 = (r'.next frame outer).2 := by
  fun_cases next r frame outer with
  | case3 c rest other =>
    have kept : r'.next (.commands (c :: rest)) outer = ((r'.perform c).1, .commands rest :: outer) := by
      cases c <;> first | rfl | exact absurd rfl other
    rw [kept]
    exact ⟨perform_congr same c, rfl⟩
  | _ => simp_all [next]

theorem drain_congr (same : r.scheduler = r'.scheduler) (frames : List Frame) :
    (r.drain frames).scheduler = (r'.drain frames).scheduler := by
  induction r, frames using drain.induct generalizing r' with
  | case1 r => rw [drain, drain, same]
  | case2 r frame outer ih =>
    obtain ⟨next, frames⟩ := next_congr same frame outer
    rw [drain, drain, ← frames, ih next]

/-- The commands of a program one after the other, as they come from outside. -/
def session (r : Running) (commands : List Command) : Running := commands.foldl (fun r c => (r.command c).1) r

theorem command_scheduler (r : Running) (c : Command) (rest : List Command) :
    (r.drain [.commands (c :: rest)]).scheduler = ((r.command c).1.drain [.commands rest]).scheduler := by
  have cleared : r.scheduler = ({ r with fired := [] } : Running).scheduler := rfl
  by_cases run : c = .run
  · subst run
    have first : r.drain [.commands (.run :: rest)] =
        (r.drain [.firing r.scheduler.due 0]).drain [.commands rest] := by
      rw [← drain_append, drain]
      rfl
    rw [first]
    exact drain_congr (drain_congr cleared _) _
  · have first : r.drain [.commands (c :: rest)] = (r.perform c).1.drain [.commands rest] := by
      rw [drain]
      cases c <;> first | rfl | contradiction
    have performed : (r.command c).1 = (perform { r with fired := [] } c).1 := by
      cases c <;> first | rfl | contradiction
    rw [first, performed]
    exact drain_congr (perform_congr cleared c) _

theorem session_scheduler (r : Running) (commands : List Command) :
    (r.session commands).scheduler = (r.drain [.commands commands]).scheduler := by
  induction commands generalizing r with
  | nil => rw [drain, next, drain]; rfl
  | cons c rest ih =>
    rw [command_scheduler]
    exact ih _

end Session

theorem finishes (r : Running) (frames : List Frame) (log : List Event) :
    ∃ n, ((Moment.mk r frames log).after n).frames = [] ∧ ((Moment.mk r frames log).after n).running = r.drain frames := by
  induction r, frames using drain.induct generalizing log with
  | case1 r => exact ⟨0, rfl, by rw [drain]; rfl⟩
  | case2 r frame outer ih =>
    obtain ⟨n, empty, last⟩ := ih (log ++ (r.event? frame outer).toList)
    refine ⟨n + 1, ?_, ?_⟩
    · rw [Moment.after_succ]
      exact empty
    · rw [Moment.after_succ, drain]
      exact last

theorem program_finishes (delay : Int) (commands : List Command) :
    ∃ n, ((Moment.start delay commands).after n).frames = [] ∧
      ((Moment.start delay commands).after n).running.scheduler =
        (session { scheduler := { delay } } commands).scheduler := by
  obtain ⟨n, empty, last⟩ := finishes { scheduler := { delay } } [.commands commands] []
  refine ⟨n, empty, ?_⟩
  rw [session_scheduler]
  exact congrArg Running.scheduler last

end Running
end Scheduler
end QueryService
