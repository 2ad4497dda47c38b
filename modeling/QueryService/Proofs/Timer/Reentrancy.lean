import QueryService.Proofs.Timer.Conservation
import QueryService.Proofs.Timer.Order

/-!
# Runs inside runs

A callback may run what is due while the run that fired it is still under way. Each run keeps to the timers that
it found due when it began (`Plan`): whatever its callbacks do, those that it has passed are gone for good, and
those ahead are fired if they still wait. What an event needs has happened before it (`Justified`).
-/

namespace QueryService
namespace Scheduler
namespace Running

open TimerQueue

namespace Event

def depth? : Event → Option Nat
  | .performed _ _ => none
  | .began depth _ | .fired depth _ | .ended depth _ => some depth

def begins : Event → Bool
  | .began _ _ => true
  | _ => false

def ends : Event → Bool
  | .ended _ _ => true
  | _ => false

theorem bounds_of_depth {e : Event} {depth : Nat} (apart : e.depth? ≠ some depth) : e.bounds depth = false := by
  cases e <;> simp_all [depth?, bounds]

end Event

variable {log earlier during : List Event} {e : Event} {depth : Nat} {due : List Nat} {s : Scheduler Bytes Callback}
  {q q' : TimerQueue (Job Bytes Callback)} {passed ahead : List (Timer (Job Bytes Callback))}
  {t : Timer (Job Bytes Callback)} {frames : List Frame}

/-- A run is under way at the end of the log: it began with `s` after `earlier`, and `during` has happened since. -/
structure Underway (log : List Event) (depth : Nat) (earlier : List Event) (s : Scheduler Bytes Callback)
    (during : List Event) : Prop where
  begun : log = earlier ++ .began depth s :: during
  inside : ∀ e ∈ during, e.bounds depth = false

theorem Underway.step (underway : Underway log depth earlier s during) (inner : e.bounds depth = false) :
    Underway (log ++ [e]) depth earlier s (during ++ [e]) := by
  refine ⟨?_, ?_⟩
  · rw [underway.begun, List.append_assoc, List.cons_append]
  · intro other member
    rcases List.mem_append.mp member with old | new
    · exact underway.inside other old
    · rw [List.mem_singleton.mp new]
      exact inner

/-- The queue of a run that is under way: its old timers waited when the run began, and new timers have new
numbers. -/
structure Span (log : List Event) (depth : Nat) (q : TimerQueue (Job Bytes Callback)) (earlier : List Event)
    (s : Scheduler Bytes Callback) (during : List Event) : Prop where
  underway : Underway log depth earlier s during
  sound : Sound earlier s.queue
  later : ∀ t ∈ scheduled during, s.queue.nextId ≤ t.id
  nextId : s.queue.nextId ≤ q.nextId
  old : ∀ t ∈ q.timers, t.id < s.queue.nextId → t ∈ s.queue.timers

theorem Span.step (span : Span log depth q earlier s during) (makes : e.Makes q q') (inner : e.bounds depth = false) :
    Span (log ++ [e]) depth q' earlier s (during ++ [e]) := by
  have nextId := span.nextId
  refine ⟨span.underway.step inner, span.sound, ?_, ?_, ?_⟩
  · intro t member
    rw [scheduled_append, List.mem_append] at member
    rcases member with old | new
    · exact span.later t old
    · have number := makes.number t (Option.mem_toList.mp new)
      omega
  · rw [makes.nextId]
    omega
  · intro t member below
    rw [makes.timers, List.mem_append] at member
    rcases member with kept | new
    · exact span.old t (List.mem_of_mem_filter kept) below
    · have number := makes.number t (Option.mem_toList.mp new)
      omega

/-- A number that was given out and does not wait will never wait again. -/
theorem Event.Makes.gone (makes : e.Makes q q') {id : Nat} (used : id < q.nextId) (gone : q.isPending id = false) :
    q'.isPending id = false := by
  rw [Bool.eq_false_iff] at *
  intro waits
  obtain ⟨t, member, rfl⟩ := isPending_iff.mp waits
  rw [makes.timers, List.mem_append] at member
  rcases member with kept | new
  · exact gone (isPending_iff.mpr ⟨t, List.mem_of_mem_filter kept, rfl⟩)
  · have number := makes.number t (Option.mem_toList.mp new)
    omega

/-- What a run has passed of the timers that it found due, and what it has ahead. -/
structure Plan (depth : Nat) (q : TimerQueue (Job Bytes Callback)) (s : Scheduler Bytes Callback)
    (during : List Event) (passed ahead : List (Timer (Job Bytes Callback))) : Prop where
  found : s.queue.ordered s.now = passed ++ ahead
  gone : ∀ t ∈ passed, q.isPending t.id = false
  fired : ∀ t, .fired depth t ∈ during → t ∈ passed

theorem Plan.mem (plan : Plan depth q s during passed ahead) (member : t ∈ passed ++ ahead) :
    t ∈ s.queue.timers ∧ t.deadline ≤ s.now := by
  rw [← plan.found] at member
  exact mem_ordered.mp member

theorem Plan.step (plan : Plan depth q s during passed ahead) (span : Span log depth q earlier s during)
    (makes : e.Makes q q') (apart : e.depth? ≠ some depth) : Plan depth q' s (during ++ [e]) passed ahead := by
  refine ⟨plan.found, ?_, ?_⟩
  · intro t member
    have below := span.sound.below (plan.mem (List.mem_append_left _ member)).1
    exact makes.gone (Nat.lt_of_lt_of_le below span.nextId) (plan.gone t member)
  · intro t member
    rcases List.mem_append.mp member with old | new
    · exact plan.fired t old
    · rw [← List.mem_singleton.mp new] at apart
      exact absurd rfl apart

theorem Plan.skip (plan : Plan depth q s during passed (t :: ahead)) (gone : q.isPending t.id = false) :
    Plan depth q s during (passed ++ [t]) ahead := by
  refine ⟨?_, ?_, ?_⟩
  · rw [plan.found, List.append_assoc, List.singleton_append]
  · intro other member
    rcases List.mem_append.mp member with old | new
    · exact plan.gone other old
    · rw [List.mem_singleton.mp new]
      exact gone
  · intro other member
    exact List.mem_append_left _ (plan.fired other member)

theorem Plan.fire (plan : Plan depth q s during passed (t :: ahead)) (span : Span log depth q earlier s during)
    (makes : Event.Makes (.fired depth t) q q') (gone : q'.isPending t.id = false) :
    Plan depth q' s (during ++ [.fired depth t]) (passed ++ [t]) ahead := by
  refine ⟨?_, ?_, ?_⟩
  · rw [plan.found, List.append_assoc, List.singleton_append]
  · intro other member
    rcases List.mem_append.mp member with old | new
    · have below := span.sound.below (plan.mem (List.mem_append_left _ old)).1
      exact makes.gone (Nat.lt_of_lt_of_le below span.nextId) (plan.gone other old)
    · rw [List.mem_singleton.mp new]
      exact gone
  · intro other member
    rcases List.mem_append.mp member with old | new
    · exact List.mem_append_left _ (plan.fired other old)
    · cases List.mem_singleton.mp new
      exact List.mem_append_right _ List.mem_cons_self

/-- The run of a frame at this depth has still to reach the timers of these numbers. -/
def Reaching (log : List Event) (depth : Nat) (q : TimerQueue (Job Bytes Callback)) (due : List Nat) : Prop :=
  ∃ earlier s during passed ahead, Span log depth q earlier s during ∧ Plan depth q s during passed ahead ∧
    ahead.map (·.id) = due

theorem Reaching.step (reaching : Reaching log depth q due) (makes : e.Makes q q') (apart : e.depth? ≠ some depth) :
    Reaching (log ++ [e]) depth q' due := by
  obtain ⟨earlier, s, during, passed, ahead, span, plan, numbers⟩ := reaching
  exact ⟨earlier, s, during ++ [e], passed, ahead, span.step makes (Event.bounds_of_depth apart),
    plan.step span makes apart, numbers⟩

/-- Each run on the stack. -/
def Stacked (log : List Event) (q : TimerQueue (Job Bytes Callback)) : List Frame → Prop
  | [] => True
  | .commands _ :: outer => Stacked log q outer
  | .firing due _ :: outer => Reaching log (Frame.depth outer) q due ∧ Stacked log q outer

theorem depth_firing (due : List Nat) (count : Nat) (outer : List Frame) :
    Frame.depth (.firing due count :: outer) = Frame.depth outer + 1 :=
  List.countP_cons_of_pos rfl

theorem depth_commands (rest : List Command) (outer : List Frame) :
    Frame.depth (.commands rest :: outer) = Frame.depth outer :=
  List.countP_cons_of_neg nofun

/-- What happens inside a run leaves the runs around it as they are. -/
theorem Stacked.step (stacked : Stacked log q frames) (makes : e.Makes q q')
    (inner : ∀ depth < Frame.depth frames, e.depth? ≠ some depth) : Stacked (log ++ [e]) q' frames := by
  induction frames with
  | nil => trivial
  | cons frame outer ih =>
    cases frame with
    | commands rest =>
      rw [depth_commands] at inner
      exact ih stacked inner
    | firing due count =>
      rw [depth_firing] at inner
      obtain ⟨reaching, outside⟩ := stacked
      refine ⟨reaching.step makes (inner _ (Nat.lt_succ_self _)), ih outside ?_⟩
      intro depth below
      exact inner depth (Nat.lt_succ_of_lt below)

/-! ### The events of a run -/

/-- A run fires only timers that it found due, one after the other in the order of their deadlines. -/
structure Fires (log : List Event) (depth : Nat) (t : Timer (Job Bytes Callback)) (earlier : List Event)
    (s : Scheduler Bytes Callback) (during : List Event) : Prop where
  underway : Underway log depth earlier s during
  known : t ∈ scheduled earlier
  waiting : t ∈ s.queue.timers
  due : t.deadline ≤ s.now
  order : ∀ other, .fired depth other ∈ during → firesBefore other t = true
  older : ∀ new ∈ scheduled during, new.id ≠ t.id

/-- A run that ends leaves none of the timers waiting that it found due. -/
structure Returns (log : List Event) (depth : Nat) (s' : Scheduler Bytes Callback) (earlier : List Event)
    (s : Scheduler Bytes Callback) (during : List Event) : Prop where
  underway : Underway log depth earlier s during
  settled : ∀ t ∈ s.queue.timers, t.deadline ≤ s.now → s'.queue.isPending t.id = false

/-- What must have happened before an event. -/
def Justified (log : List Event) : Event → Prop
  | .fired depth t => ∃ earlier s during, Fires log depth t earlier s during
  | .ended depth s' => ∃ earlier s during, Returns log depth s' earlier s during
  | _ => True

theorem Reaching.skip {id : Nat} (reaching : Reaching log depth q (id :: due)) (gone : q.isPending id = false) :
    Reaching log depth q due := by
  obtain ⟨earlier, s, during, passed, ahead, span, plan, numbers⟩ := reaching
  obtain ⟨t, rest, rfl, rfl, rfl⟩ := List.map_eq_cons_iff.mp numbers
  exact ⟨earlier, s, during, passed ++ [t], rest, span, plan.skip gone, rfl⟩

theorem Reaching.fire (reaching : Reaching log depth q (t.id :: due)) (member : t ∈ q.timers)
    (makes : Event.Makes (.fired depth t) q q') :
    Justified log (.fired depth t) ∧ Reaching (log ++ [.fired depth t]) depth q' due := by
  obtain ⟨earlier, s, during, passed, ahead, span, plan, numbers⟩ := reaching
  obtain ⟨first, rest, rfl, number, rfl⟩ := List.map_eq_cons_iff.mp numbers
  obtain ⟨waited, deadline⟩ := plan.mem (List.mem_append_right passed List.mem_cons_self)
  have below := span.sound.below waited
  -- the timer that fires is the one found due, and not another that has come to wait under its number
  obtain rfl : first = t :=
    List.inj_on_of_nodup_map span.sound.distinct waited (span.old t member (number ▸ below)) number
  have gone : q'.isPending first.id = false := by
    rw [Bool.eq_false_iff]
    intro waits
    obtain ⟨other, listed, same⟩ := isPending_iff.mp waits
    rw [makes.timers, List.mem_append] at listed
    rcases listed with kept | new
    · simp [Event.cancels, Event.fires, same] at kept
    · cases new
  have sorted := ordered_pairwise span.sound.distinct s.now
  rw [plan.found] at sorted
  refine ⟨⟨earlier, s, during, span.underway, span.sound.known first waited, waited, deadline, ?_, ?_⟩,
    earlier, s, during ++ [.fired depth first], passed ++ [first], rest, span.step makes rfl,
    plan.fire span makes gone, rfl⟩
  · intro other fired
    exact (List.pairwise_append.mp sorted).2.2 other (plan.fired other fired) first List.mem_cons_self
  · intro new listed same
    have after := span.later new listed
    omega

theorem Reaching.ended (reaching : Reaching log depth q []) {s' : Scheduler Bytes Callback} (now : s'.queue = q) :
    Justified log (.ended depth s') := by
  obtain ⟨earlier, s, during, passed, ahead, span, plan, numbers⟩ := reaching
  obtain rfl := List.map_eq_nil_iff.mp numbers
  refine ⟨earlier, s, during, span.underway, ?_⟩
  intro t waited deadline
  have found := mem_ordered.mpr ⟨waited, deadline⟩
  rw [plan.found, List.append_nil] at found
  rw [now]
  exact plan.gone t found

theorem reaching_began (sound : Sound log s.queue) : Reaching (log ++ [.began depth s]) depth s.queue s.due := by
  refine ⟨log, s, [], [], s.queue.ordered s.now, ?_, ?_, (due_eq_map s.queue s.now).symm⟩
  · refine ⟨⟨rfl, ?_⟩, sound, ?_, Nat.le_refl _, fun t member _ => member⟩
    · intro e member
      cases member
    · intro t member
      cases member
  · refine ⟨rfl, ?_, ?_⟩
    · intro t member
      cases member
    · intro t member
      cases member

/-- Every event of the log had what it needs before it. -/
def Consistent (log : List Event) : Prop := ∀ before e rest, log = before ++ e :: rest → Justified before e

theorem Consistent.step (consistent : Consistent log) (justified : Justified log e) : Consistent (log ++ [e]) := by
  intro before other rest split
  rcases split_concat split with ⟨rfl, rfl, rfl⟩ | ⟨between, rfl, shorter⟩
  · exact justified
  · exact consistent before other between shorter

structure Lawful (m : Moment) : Prop where
  sound : Sound m.log m.running.scheduler.queue
  stacked : Stacked m.log m.running.scheduler.queue m.frames
  consistent : Consistent m.log
  balanced : m.log.countP Event.begins = m.log.countP Event.ends + Frame.depth m.frames

variable {r r' : Running} {frame : Frame} {outer : List Frame}

theorem Stacked.silent (stacked : Stacked log r.scheduler.queue (frame :: outer))
    (step : Step r outer frame none r' frames) :
    Stacked log r.scheduler.queue frames ∧ Frame.depth frames = Frame.depth (frame :: outer) := by
  cases step with
  | done => exact ⟨stacked, (depth_commands [] _).symm⟩
  | skipped id due count gone =>
    obtain ⟨reaching, outside⟩ := stacked
    refine ⟨⟨reaching.skip gone, outside⟩, ?_⟩
    rw [depth_firing, depth_firing]

theorem Stacked.next (stacked : Stacked log r.scheduler.queue (frame :: outer)) (sound : Sound log r.scheduler.queue)
    (step : Step r outer frame (some e) r' frames) :
    Justified log e ∧ Stacked (log ++ [e]) r'.scheduler.queue frames ∧
      Frame.depth frames + [e].countP Event.ends = Frame.depth (frame :: outer) + [e].countP Event.begins := by
  have makes := step.makes
  -- What has a depth of its own happens inside the runs below.
  have inner {own : Nat} (here : e.depth? = some own) (depth : Nat) (below : depth < own) : e.depth? ≠ some depth := by
    rw [here]
    intro same
    exact Nat.ne_of_gt below (Option.some.inj same)
  cases step with
  | began rest =>
    have outside : Stacked log r.scheduler.queue outer := stacked
    refine ⟨trivial, ⟨reaching_began sound, outside.step makes (inner rfl)⟩, ?_⟩
    rw [depth_firing, depth_commands, depth_commands]
    rfl
  | performed c rest =>
    have outside : Stacked log r.scheduler.queue outer := stacked
    refine ⟨trivial, outside.step makes (fun _ _ => nofun), ?_⟩
    rw [depth_commands, depth_commands]
    rfl
  | ended count =>
    obtain ⟨reaching, outside⟩ := stacked
    refine ⟨reaching.ended rfl, outside.step makes (inner rfl), ?_⟩
    rw [depth_firing]
    rfl
  | fired t due count scheduler waits taken =>
    obtain ⟨reaching, outside⟩ := stacked
    obtain ⟨justified, further⟩ := reaching.fire waits makes
    refine ⟨justified, ⟨further, outside.step makes (inner rfl)⟩, ?_⟩
    rw [depth_commands, depth_firing, depth_firing]
    rfl

theorem lawful_start (delay : Int) (commands : List Command) : Lawful (Moment.start delay commands) where
  sound := sound_start delay commands
  stacked := trivial
  consistent before e rest split := by
    have empty := congrArg List.length split
    simp [Moment.start] at empty
  balanced := rfl

theorem Lawful.next {m : Moment} (lawful : Lawful m) : Lawful m.next := by
  rcases m.next_cases with same | ⟨frame, outer, event, on, step, log⟩
  · rw [same]
    exact lawful
  · obtain ⟨sound, stacked, consistent, balanced⟩ := lawful
    rw [on] at stacked balanced
    cases event with
    | none =>
      rw [Option.toList_none, List.append_nil] at log
      obtain ⟨inner, depth⟩ := stacked.silent step
      refine ⟨?_, ?_, ?_, ?_⟩
      · rw [log, step.silent]
        exact sound
      · rw [log, step.silent]
        exact inner
      · rw [log]
        exact consistent
      · rw [log, depth]
        exact balanced
    | some e =>
      rw [Option.toList_some] at log
      obtain ⟨justified, inner, depth⟩ := stacked.next sound step
      refine ⟨?_, ?_, ?_, ?_⟩
      · rw [log]
        exact sound.step step.makes
      · rw [log]
        exact inner
      · rw [log]
        exact consistent.step justified
      · rw [log, List.countP_append, List.countP_append]
        omega

theorem lawful_after (delay : Int) (commands : List Command) (n : Nat) :
    Lawful ((Moment.start delay commands).after n) := by
  induction n with
  | zero => exact lawful_start delay commands
  | succ n ih => exact ih.next

/-- Whatever its callbacks do, a program comes to its end, and at every moment of it each timer that was ever
scheduled waits, has fired or was cancelled, once and in one of these ways; a run fires timers that it found due, by
deadline and number, and leaves none of them waiting. -/
theorem timers_conserved (delay : Int) (commands : List Command) :
    (∃ n, ((Moment.start delay commands).after n).frames = [] ∧
      ((Moment.start delay commands).after n).running.scheduler =
        (session { scheduler := { delay } } commands).scheduler) ∧
    ∀ n m, (Moment.start delay commands).after n = m →
      ((scheduled m.log).map (·.id)).Nodup ∧
      (∀ t ∈ m.running.scheduler.queue.timers, t ∈ scheduled m.log) ∧
      (∀ t ∈ scheduled m.log, t.id ≠ 0 ∧
        m.running.scheduler.queue.timers.countP (·.id == t.id) + m.log.countP (Event.fires t.id) +
          m.log.countP (Event.cancels t.id) = 1) ∧
      (∀ before depth t rest, m.log = before ++ .fired depth t :: rest →
        ∃ earlier s during, Fires before depth t earlier s during) ∧
      (∀ before depth s' rest, m.log = before ++ .ended depth s' :: rest →
        ∃ earlier s during, Returns before depth s' earlier s during) ∧
      m.log.countP Event.begins = m.log.countP Event.ends + Frame.depth m.frames := by
  refine ⟨program_finishes delay commands, ?_⟩
  rintro n m rfl
  obtain ⟨sound, _, consistent, balanced⟩ := lawful_after delay commands n
  refine ⟨sound.nodup, sound.known, ?_, ?_, ?_, balanced⟩
  · intro t member
    exact ⟨Nat.ne_of_gt (sound.used member).1, sound.fate member⟩
  · intro before depth t rest split
    exact consistent before (.fired depth t) rest split
  · intro before depth s' rest split
    exact consistent before (.ended depth s') rest split

/-- The first of two callbacks that are due runs the second, which cancels a third timer, and runs again what it
schedules into the past. -/
def reentrant : List Command :=
  [.schedule 5 none [.run, .schedule (-3) none [], .run], .schedule 5 none [.cancel 3], .schedule 7 none [],
    .setClock 6, .run, .setClock 2, .run]

theorem reentrant_conserved :
    let m := (Moment.start 10 reentrant).after 23
    m.frames = [] ∧ m.running.scheduler.queue.timers = [] ∧
      (scheduled m.log).map (fun t => (t.id, t.deadline, m.log.countP (Event.fires t.id), m.log.countP (Event.cancels t.id))) =
        [(1, 5, 1, 0), (2, 5, 1, 0), (3, 7, 0, 1), (4, 3, 1, 0)] ∧
      (∀ t ∈ scheduled m.log, t.id ≠ 0 ∧
        m.running.scheduler.queue.timers.countP (·.id == t.id) + m.log.countP (Event.fires t.id) +
          m.log.countP (Event.cancels t.id) = 1) ∧
      (∃ earlier s during, Fires (m.log.take 12) 1 ⟨4, 3, ⟨none, ⟨none, []⟩⟩⟩ earlier s during) ∧
      ∃ earlier s during, Returns (m.log.take 14) 0 ⟨6, 10, ⟨[], 5⟩, []⟩ earlier s during := by
  obtain ⟨_, _, fates, fires, returns, _⟩ := (timers_conserved 10 reentrant).2 23 _ rfl
  refine ⟨rfl, rfl, rfl, fates, ?_, ?_⟩
  · exact fires _ 1 ⟨4, 3, ⟨none, ⟨none, []⟩⟩⟩ (((Moment.start 10 reentrant).after 23).log.drop 13) rfl
  · exact returns _ 0 ⟨6, 10, ⟨[], 5⟩, []⟩ (((Moment.start 10 reentrant).after 23).log.drop 15) rfl

end Running
end Scheduler
end QueryService
