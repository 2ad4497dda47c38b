import QueryService.Proofs.Highlighter.EarlyValidation
import QueryService.Proofs.Timer.Order

/-!
# Edits in a text that stays

As long as no new text comes, a position points at the same statement when it is edited and when its timer fires.
The timers are then those of the edits that nothing has followed in their statement (`waiting`), in order, and a run
validates the statements of those whose time has come.
-/

namespace QueryService
namespace Highlighter

open Statement (Points Stays)

variable {σ : Type} {observe : Observer σ}

/-- What may happen to a highlighter that tracks its text. -/
inductive Call where
  | edit (place : Position)
  | wait (elapsed : Nat)
  | run
  deriving DecidableEq, Repr

def invoke (observe : Observer σ) (s : σ × Highlighter) : Call → σ × Highlighter
  | .edit place => (s.1, s.2.notifyEdit place)
  | .wait elapsed => act observe s (.wait elapsed)
  | .run => act observe s .run

def invokeAll (observe : Observer σ) (s : σ × Highlighter) (calls : List Call) : σ × Highlighter :=
  calls.foldl (invoke observe) s

/-- The edits of statements, with their times, and the validations. Statements are known by their offsets. -/
inductive Note where
  | edited (start : Nat) (time : Int)
  | validated (start : Nat)
  deriving DecidableEq, Repr

namespace Note

def start : Note → Nat
  | .edited start _ | .validated start => start

def edit? : Note → Option (Nat × Int)
  | .edited start time => some (start, time)
  | .validated _ => none

end Note

def noted (observe : Observer σ) (s : σ × Highlighter) : Call → List Note
  | .edit place =>
    ((s.2.statements.atPosition? place).map fun e => Note.edited e.statement.start s.2.scheduler.now).toList
  | .wait _ => []
  | .run => ((validated observe s .run).map (·.start)).map .validated

def notes (observe : Observer σ) (s : σ × Highlighter) : List Call → List Note
  | [] => []
  | c :: calls => noted observe s c ++ notes observe (invoke observe s c) calls

/-- The edits that no later note follows in their statement, in their order. -/
def waiting : List Note → List (Nat × Int)
  | [] => []
  | .edited start time :: later =>
    if later.any (·.start == start) then waiting later else (start, time) :: waiting later
  | .validated _ :: later => waiting later

variable {log : List Note} {start : Nat} {time : Int}

theorem mem_waiting : (start, time) ∈ waiting log ↔
    ∃ before later, log = before ++ .edited start time :: later ∧ ∀ n ∈ later, n.start ≠ start := by
  induction log with
  | nil => simp [waiting]
  | cons first rest ih =>
    have skip : (∃ before later, first :: rest = before ++ .edited start time :: later ∧ ∀ n ∈ later, n.start ≠ start) ↔
        (first = .edited start time ∧ ∀ n ∈ rest, n.start ≠ start) ∨ (start, time) ∈ waiting rest := by
      rw [ih]
      constructor
      · rintro ⟨before, later, split, alone⟩
        cases before with
        | nil =>
          obtain ⟨rfl, rfl⟩ := List.cons.inj split
          exact Or.inl ⟨rfl, alone⟩
        | cons _ before =>
          obtain ⟨rfl, rfl⟩ := List.cons.inj split
          exact Or.inr ⟨before, later, rfl, alone⟩
      · rintro (⟨rfl, alone⟩ | ⟨before, later, rfl, alone⟩)
        · exact ⟨[], rest, rfl, alone⟩
        · exact ⟨first :: before, later, rfl, alone⟩
    rw [skip]
    cases first with
    | validated other => simp [waiting]
    | edited other moment =>
      rw [waiting]
      by_cases followed : rest.any (·.start == other) = true
      · obtain ⟨n, member, same⟩ := List.any_eq_true.mp followed
        rw [if_pos followed]
        refine (or_iff_right ?_).symm
        rintro ⟨same', alone⟩
        cases same'
        exact alone n member (beq_iff_eq.mp same)
      · rw [if_neg followed, List.mem_cons]
        have alone : ∀ n ∈ rest, n.start ≠ other := by simpa using followed
        refine or_congr_left ?_
        constructor
        · intro same
          cases same
          exact ⟨rfl, alone⟩
        · rintro ⟨same, _⟩
          cases same
          rfl

/-- No statement waits twice. -/
theorem nodup_waiting (log : List Note) : ((waiting log).map (·.1)).Nodup := by
  induction log with
  | nil => exact List.nodup_nil
  | cons first rest ih =>
    cases first with
    | validated other => exact ih
    | edited other moment =>
      rw [waiting]
      split
      · exact ih
      · rename_i alone
        refine List.nodup_cons.mpr ⟨?_, ih⟩
        intro listed
        obtain ⟨⟨start, time⟩, member, rfl⟩ := List.mem_map.mp listed
        obtain ⟨before, later, rfl, _⟩ := mem_waiting.mp member
        simp [Note.start] at alone

theorem waiting_concat (log : List Note) (n : Note) :
    waiting (log ++ [n]) = (waiting log).filter (fun e => e.1 ≠ n.start) ++ n.edit?.toList := by
  induction log with
  | nil => cases n <;> rfl
  | cons first rest ih =>
    cases first with
    | validated other => exact ih
    | edited other moment =>
      rw [List.cons_append, waiting, waiting, List.any_append, List.any_cons, List.any_nil, Bool.or_false, ih]
      by_cases followed : rest.any (·.start == other) = true
      · simp [followed]
      · by_cases same : n.start = other
        · simp [followed, same]
        · have differs : other ≠ n.start := Ne.symm same
          simp [followed, same, differs]

/-- The edits that wait since the delay or longer. -/
def overdue (delay now : Int) (edits : List (Nat × Int)) : List (Nat × Int) := edits.filter fun e => e.2 + delay ≤ now

/-! ### The timers of the edits -/

/-- The key of a timer, and when it was set. -/
def stamp (delay : Int) (t : Timer (Job Nat Position)) : Option Nat × Int := (t.action.key, t.deadline - delay)

/-- The timers are those of the edits, in the same order, and point at the statements that were edited. -/
structure Timed (text : Bytes) (delay now : Int) (timers : List (Timer (Job Nat Position))) (edits : List (Nat × Int)) :
    Prop where
  stamps : timers.map (stamp delay) = edits.map (Prod.map some id)
  pointing : ∀ t ∈ timers, ∀ start, t.action.key = some start → Points (Statement.parse text) t.action.action start
  numbers : timers.Pairwise (·.id < ·.id)
  times : edits.Pairwise (·.2 ≤ ·.2)
  past : ∀ e ∈ edits, e.2 ≤ now

section Timed

variable {text : Bytes} {delay now : Int} {timers : List (Timer (Job Nat Position))} {edits : List (Nat × Int)}
  {t : Timer (Job Nat Position)}

theorem timed_nil : Timed text delay now [] [] := ⟨rfl, nofun, List.Pairwise.nil, List.Pairwise.nil, nofun⟩

theorem Timed.mem (timed : Timed text delay now timers edits) (member : t ∈ timers) :
    ∃ e ∈ edits, t.action.key = some e.1 := by
  have stamped : stamp delay t ∈ edits.map (Prod.map some id) := by
    rw [← timed.stamps]
    exact List.mem_map_of_mem member
  obtain ⟨e, listed, same⟩ := List.mem_map.mp stamped
  exact ⟨e, listed, (congrArg Prod.fst same).symm⟩

/-- What is picked from the timers by their stamps is picked from the edits. -/
theorem Timed.filter (timed : Timed text delay now timers edits) {p : Timer (Job Nat Position) → Bool}
    {q : Nat × Int → Bool} (r : Option Nat × Int → Bool) (left : ∀ t, p t = r (stamp delay t))
    (right : ∀ e, q e = r (Prod.map some id e)) : Timed text delay now (timers.filter p) (edits.filter q) := by
  refine ⟨?_, ?_, timed.numbers.filter _, timed.times.filter _, ?_⟩
  · obtain rfl : p = r ∘ stamp delay := funext left
    obtain rfl : q = r ∘ Prod.map some id := funext right
    rw [← List.filter_map, ← List.filter_map, timed.stamps]
  · intro t member
    exact timed.pointing t (List.mem_of_mem_filter member)
  · intro e member
    exact timed.past e (List.mem_of_mem_filter member)

theorem Timed.without (timed : Timed text delay now timers edits) (start : Nat) :
    Timed text delay now (timers.filter fun t => t.action.key ≠ some start) (edits.filter fun e => e.1 ≠ start) := by
  apply timed.filter fun e => decide (e.1 ≠ some start)
  · exact fun t => rfl
  · exact fun e => by simp

theorem Timed.concat (timed : Timed text delay now timers edits) {start : Nat} (own : t.action.key = some start)
    (set : t.deadline = now + delay) (points : Points (Statement.parse text) t.action.action start)
    (fresh : ∀ other ∈ timers, other.id < t.id) : Timed text delay now (timers ++ [t]) (edits ++ [(start, now)]) := by
  refine ⟨?_, ?_, ?_, ?_, ?_⟩
  · rw [List.map_append, List.map_append, timed.stamps]
    simp [stamp, own, set]
  · intro other member key same
    rcases List.mem_append.mp member with old | new
    · exact timed.pointing other old key same
    · obtain rfl := List.mem_singleton.mp new
      rw [own] at same
      rwa [← Option.some.inj same]
  · rw [List.pairwise_append]
    refine ⟨timed.numbers, List.pairwise_singleton _ _, ?_⟩
    intro other old new last
    rw [List.mem_singleton.mp last]
    exact fresh other old
  · rw [List.pairwise_append]
    refine ⟨timed.times, List.pairwise_singleton _ _, ?_⟩
    intro e old new last
    rw [List.mem_singleton.mp last]
    exact timed.past e old
  · intro e member
    rcases List.mem_append.mp member with old | new
    · exact timed.past e old
    · rw [List.mem_singleton.mp new]

theorem Timed.later (timed : Timed text delay now timers edits) {moment : Int} (later : now ≤ moment) :
    Timed text delay moment timers edits :=
  { timed with past := fun e member => Int.le_trans (timed.past e member) later }

theorem Timed.sorted (timed : Timed text delay now timers edits) :
    timers.Pairwise fun a b => TimerQueue.firesBefore a b = true := by
  have times : (timers.map (stamp delay)).Pairwise fun a b => a.2 ≤ b.2 := by
    rw [timed.stamps]
    exact List.pairwise_map.mpr timed.times
  refine (timed.numbers.and (List.pairwise_map.mp times)).imp ?_
  rintro a b ⟨number, time⟩
  rw [TimerQueue.firesBefore_iff]
  simp only [stamp] at time
  omega

theorem Timed.overdue (timed : Timed text delay now timers edits) :
    Timed text delay now (timers.filter fun t => t.deadline ≤ now) (overdue delay now edits) := by
  apply timed.filter fun e => decide (e.2 + delay ≤ now)
  · exact fun t => by simp [stamp]
  · exact fun e => rfl

theorem Timed.keys (timed : Timed text delay now timers edits) :
    timers.map (·.action.key) = (edits.map (·.1)).map some := by
  have firsts := congrArg (List.map Prod.fst) timed.stamps
  rw [List.map_map, List.map_map] at firsts
  rw [List.map_map]
  exact firsts

end Timed

/-- The timers of a highlighter are those of the edits in the log that still wait. -/
structure Tracks (text : Bytes) (delay : Int) (log : List Note) (h : Highlighter) : Prop where
  coherent : h.Coherent
  exclusive : h.scheduler.Exclusive
  debounce : h.scheduler.delay = delay
  places : ∀ p start, Points h.statements.statements p start ↔ Points (Statement.parse text) p start
  timed : Timed text delay h.scheduler.now h.scheduler.queue.timers (waiting log)
  dirty : ∀ s ∈ h.statements.statements, ∀ e ∈ waiting log, e.1 = s.start → s.dirty = true

variable {text : Bytes} {delay : Int} {h h' : Highlighter} {s : σ × Highlighter}

theorem statements_update_new (options : HighlighterOptions) (level : LogLevel) (time : Int) (text : Bytes) :
    (((new options level).setClock time).update text).statements.statements = Statement.parse text := by
  have coherent := coherent_new options level time
  have unknown : ((new options level).setClock time).known = id := by
    funext s
    rfl
  rw [(update_spec coherent.tokens text).2.2, unknown, List.map_id]

theorem tracks_new (options : HighlighterOptions) (level : LogLevel) (time : Int) (text : Bytes) :
    Tracks text options.debounce [] (((new options level).setClock time).update text) := by
  have coherent := coherent_new options level time
  have scheduler := (update_spec coherent.tokens text).1.scheduler
  refine ⟨coherent.update text, ?_, ?_, ?_, ?_, nofun⟩
  · rw [scheduler]
    exact Scheduler.exclusive_new time options.debounce
  · rw [scheduler]
    rfl
  · intro p start
    rw [statements_update_new]
  · rw [scheduler]
    exact timed_nil

theorem Tracks.wait (tracks : Tracks text delay log h) (elapsed : Nat) :
    Tracks text delay log (h.setClock (h.scheduler.now + elapsed)) :=
  { tracks with
    coherent := tracks.coherent.wait elapsed
    exclusive := tracks.exclusive.setNow _
    timed := tracks.timed.later (Int.le_add_of_nonneg_right (Int.natCast_nonneg elapsed)) }

theorem Tracks.stays (tracks : Tracks text delay log h) {f : Statement → Statement} (stays : Stays f)
    (statements : h'.statements.statements = h.statements.statements.map f) (p : Position) (start : Nat) :
    Points h'.statements.statements p start ↔ Points (Statement.parse text) p start := by
  rw [statements, Statement.points_map stays]
  exact tracks.places p start

theorem Tracks.edit (tracks : Tracks text delay log h) {place : Position} {e : Entry}
    (found : h.statements.atPosition? place = some e) :
    Tracks text delay (log ++ [.edited e.statement.start h.scheduler.now]) (h.notifyEdit place) := by
  have statements := notifyEdit_statements tracks.coherent place
  have pointed (start : Nat) : Points h.statements.statements place start ↔ start = e.statement.start :=
    Listing.points_iff found
  have set : (h.notifyEdit place).scheduler = h.scheduler.trigger e.statement.start place := by
    rw [notifyEdit, found]
  have clock := Scheduler.trigger_clock h.scheduler e.statement.start place
  have log' : waiting (log ++ [.edited e.statement.start h.scheduler.now]) =
      (waiting log).filter (fun x => x.1 ≠ e.statement.start) ++ [(e.statement.start, h.scheduler.now)] :=
    waiting_concat log _
  have dirtied := stays_soiled.choose Statement.stays_id fun s => Points h.statements.statements place s.start
  refine ⟨tracks.coherent.notifyEdit place, ?_, ?_, tracks.stays dirtied statements, ?_, ?_⟩
  · rw [set]
    exact tracks.exclusive.trigger tracks.coherent.timely.used _ _
  · rw [set, clock.2, tracks.debounce]
  · rw [log', set, Scheduler.trigger_timers, tracks.exclusive.cancelKey_timers, clock.1]
    refine (tracks.timed.without e.statement.start).concat rfl ?_ ?_ ?_
    · rw [tracks.debounce]
    · exact (tracks.places _ _).mp ((pointed _).mpr rfl)
    · intro t old
      exact tracks.coherent.timely.used t (List.mem_of_mem_filter old)
  · intro s member x waits same
    rw [statements] at member
    obtain ⟨old, listed, rfl⟩ := List.mem_map.mp member
    rw [dirtied.start] at same
    split
    · rfl
    · rename_i apart
      rw [log', List.mem_append, List.mem_singleton] at waits
      rcases waits with earlier | rfl
      · exact tracks.dirty old listed x (List.mem_of_mem_filter earlier) same
      · exact absurd ((pointed _).mpr same.symm) apart

/-! ### A run -/

variable {t : Timer (Job Nat Position)} {start : Nat}

/-- A timer points at its statement still. -/
theorem Tracks.points (tracks : Tracks text delay log h) (member : t ∈ h.scheduler.queue.timers)
    (own : t.action.key = some start) (other : Nat) :
    Points h.statements.statements t.action.action other ↔ other = start := by
  have here := (tracks.places _ _).mpr (tracks.timed.pointing t member start own)
  rw [Points, here, Option.some_inj]
  exact eq_comm

/-- The statement of an edit that waits is validated when its timer fires. -/
theorem Tracks.target (tracks : Tracks text delay log h) (member : t ∈ h.scheduler.queue.timers)
    (own : t.action.key = some start) : ∃ v, target? h t.id = some v ∧ v.start = start := by
  have points := (tracks.points member own start).mpr rfl
  obtain ⟨x, there, rfl⟩ := Option.map_eq_some_iff.mp points
  have listed := Statement.mem_of_at? there
  obtain ⟨e, waits, key⟩ := tracks.timed.mem member
  have same : e.1 = x.start := by
    rw [own] at key
    exact (Option.some.inj key).symm
  exact (target?_iff tracks.coherent member listed (tracks.dirty x listed e waits same)).mpr points

theorem tracks_fire (tracks : Tracks text delay log h) (member : t ∈ h.scheduler.queue.timers)
    (own : t.action.key = some start) (fires : Fires t h h') (exclusive : h'.scheduler.Exclusive) :
    Tracks text delay (log ++ [.validated start]) h' := by
  have timers : h'.scheduler.queue.timers = h.scheduler.queue.timers.filter (fun t => t.action.key ≠ some start) := by
    rw [fires.timers]
    apply List.filter_congr
    intro other listed
    have known := (tracks.exclusive.held t member start).mp own
    have shared := tracks.exclusive.held other listed start
    rw [known, Option.some_inj] at shared
    rw [Bool.eq_iff_iff, bne_iff_ne, decide_eq_true_eq, Ne, Ne, shared]
    exact not_congr eq_comm
  have log' : waiting (log ++ [.validated start]) = (waiting log).filter (fun x => x.1 ≠ start) := by
    rw [waiting_concat]
    exact List.append_nil _
  have cleaned := stays_checked.choose Statement.stays_id
    fun s => Points h.statements.statements t.action.action s.start
  refine ⟨fires.coherent, exclusive, ?_, tracks.stays cleaned fires.statements, ?_, ?_⟩
  · rw [fires.clock.2, tracks.debounce]
  · rw [timers, log', fires.clock.1]
    exact tracks.timed.without start
  · intro s listed x waits same
    rw [log'] at waits
    obtain ⟨waited, differs⟩ := List.mem_filter.mp waits
    rw [fires.statements] at listed
    obtain ⟨old, there, rfl⟩ := List.mem_map.mp listed
    rw [cleaned.start] at same
    split
    · rename_i points
      rw [same, (tracks.points member own _).mp points] at differs
      simp at differs
    · exact tracks.dirty old there x waited same

/-- The statements that were checked with the first timer, and then with the others. -/
theorem checked_more (statements : List Statement) (start : Nat) (starts : List Nat) :
    (statements.map fun x => if x.start = start then checked x else x).map
        (fun x => if x.start ∈ starts then checked x else x) =
      statements.map fun x => if x.start ∈ start :: starts then checked x else x := by
  rw [List.map_map]
  refine List.map_congr_left fun x _ => ?_
  simp only [Function.comp_apply, List.mem_cons]
  by_cases same : x.start = start
  · rw [if_pos same, if_pos (Or.inl same)]
    split
    · exact checked_checked x
    · rfl
  · simp only [same, if_false, false_or]

theorem tracks_fires (discreet : Discreet observe) (ts : List (Timer (Job Nat Position))) {s : Nat × σ × Highlighter}
    (tracks : Tracks text delay log s.2.2) (listed : ∀ t ∈ ts, t ∈ s.2.2.scheduler.queue.timers)
    (distinct : (ts.map (·.id)).Nodup) :
    let starts := (targets observe s (ts.map (·.id))).map (·.start)
    let after := ((ts.map (·.id)).foldl (fire observe) s).2.2
    ts.map (·.action.key) = starts.map some ∧ Tracks text delay (log ++ starts.map Note.validated) after ∧
      after.statements.statements =
        s.2.2.statements.statements.map fun x => if x.start ∈ starts then checked x else x := by
  induction ts generalizing s log with
  | nil =>
    refine ⟨rfl, ?_, (map_eq_self fun x _ => if_neg List.not_mem_nil).symm⟩
    show Tracks text delay (log ++ []) s.2.2
    rw [List.append_nil]
    exact tracks
  | cons t ts ih =>
    have member := listed t List.mem_cons_self
    obtain ⟨first, others⟩ := List.nodup_cons.mp distinct
    obtain ⟨e, _, own⟩ := tracks.timed.mem member
    obtain ⟨v, found, place⟩ := tracks.target member own
    rcases fire_cases discreet tracks.coherent t.id with ⟨_, absent⟩ | ⟨other, there, number, fires⟩
    · exact absurd rfl (absent t member)
    obtain rfl : other = t := List.inj_on_of_nodup_map tracks.coherent.timely.distinct there member number
    have next := tracks_fire tracks member own fires (fire_exclusive discreet tracks.coherent tracks.exclusive other.id)
    have kept : ∀ t ∈ ts, t ∈ (fire observe s other.id).2.2.scheduler.queue.timers := by
      intro t later
      rw [fires.timers]
      refine List.mem_filter.mpr ⟨listed t (List.mem_cons_of_mem _ later), bne_iff_ne.mpr ?_⟩
      intro same
      exact first (List.mem_map.mpr ⟨t, later, same⟩)
    obtain ⟨keys, last, statements⟩ := ih next kept others
    have checks := fires.statements
    simp only [tracks.points member own] at checks
    dsimp only at keys last statements ⊢
    rw [List.map_cons, List.map_cons, List.foldl_cons, targets, found, Option.toList_some, List.singleton_append,
      List.map_cons, place]
    refine ⟨?_, ?_, ?_⟩
    · rw [List.map_cons, own, keys]
    · rw [List.map_cons, ← List.singleton_append, ← List.append_assoc]
      exact last
    · rw [statements, checks, checked_more]

/-! ### Passes -/

theorem passes_noteEvictions (h : Highlighter) (cache : String) (before after : Nat) :
    (h.noteEvictions cache before after).passes = h.passes := by
  unfold noteEvictions
  split <;> rfl

theorem passes_tokenize (h : Highlighter) (code : Bytes) : (h.tokenize code).2.passes = h.passes := by
  unfold tokenize
  dsimp only
  split
  · rfl
  · exact passes_noteEvictions _ _ _ _

theorem passes_notes (component : String) (messages : List Bytes) (h : Highlighter) :
    (messages.foldl (fun h message => h.note component message) h).passes = h.passes :=
  List.foldlRecOn (motive := fun h' : Highlighter => h'.passes = h.passes) messages _ rfl fun _ same _ _ => same

theorem passes_validateEntry (h : Highlighter) (e : Entry) : (h.validateEntry e).2.passes = h.passes + 1 := by
  show (noteEvictions _ _ _ _).passes + 1 = _
  rw [passes_noteEvictions]
  show Highlighter.passes (List.foldl _ _ _) + 1 = _
  rw [passes_notes]
  exact congrArg (· + 1) (passes_tokenize h e.statement.code)

/-- Each validation is one pass. -/
theorem passes_fire (discreet : Discreet observe) (s : Nat × σ × Highlighter) (id : Nat) :
    (fire observe s id).2.2.passes = s.2.2.passes + (target? s.2.2 id).toList.length := by
  unfold fire target?
  dsimp only
  cases s.2.2.scheduler.take id with
  | none => rfl
  | some pair =>
    obtain ⟨p, scheduler⟩ := pair
    show (validateAt _ _ _).2.passes = _
    unfold validateAt
    dsimp only [Option.bind_some]
    cases s.2.2.statements.atPosition? p with
    | none => rfl
    | some e =>
      by_cases dirty : e.statement.dirty = true
      · simp only [dirty, if_pos, Option.map_some, Option.filter_some]
        rw [announce, discreet]
        exact passes_validateEntry _ e
      · simp only [dirty, Option.map_some, Option.filter_some]
        rfl

theorem passes_fires (discreet : Discreet observe) (ids : List Nat) (s : Nat × σ × Highlighter) :
    (ids.foldl (fire observe) s).2.2.passes = s.2.2.passes + (targets observe s ids).length := by
  induction ids generalizing s with
  | nil => rfl
  | cons id ids ih => rw [List.foldl_cons, ih, passes_fire discreet, targets, List.length_append, Nat.add_assoc]

/-! ### Histories -/

theorem Tracks.due (tracks : Tracks text delay log h) : h.scheduler.due =
    (h.scheduler.queue.timers.filter (·.deadline ≤ h.scheduler.now)).map (·.id) := by
  rw [Scheduler.due, TimerQueue.due_eq_map, TimerQueue.ordered, TimerQueue.foldr_insert_self tracks.timed.overdue.sorted]

/-- A run validates the statements of the overdue edits, in their order. -/
theorem Tracks.run (discreet : Discreet observe) (tracks : Tracks text delay log s.2) :
    (validated observe s .run).map (·.start) = (overdue delay s.2.scheduler.now (waiting log)).map (·.1) ∧
      Tracks text delay (log ++ ((validated observe s .run).map (·.start)).map .validated) (act observe s .run).2 ∧
      (act observe s .run).2.passes = s.2.passes + (validated observe s .run).length ∧
      (act observe s .run).2.statements.statements = s.2.statements.statements.map fun x =>
        if x.start ∈ (overdue delay s.2.scheduler.now (waiting log)).map (·.1) then checked x else x := by
  have due := tracks.due
  have distinct : ((s.2.scheduler.queue.timers.filter (·.deadline ≤ s.2.scheduler.now)).map (·.id)).Nodup :=
    tracks.coherent.timely.distinct.sublist (List.filter_sublist.map _)
  obtain ⟨keys, last, statements⟩ := tracks_fires (s := (0, s)) discreet _ tracks
    (fun t member => List.mem_of_mem_filter member) distinct
  have starts : (validated observe s .run).map (·.start) =
      (overdue delay s.2.scheduler.now (waiting log)).map (·.1) := by
    rw [tracks.timed.overdue.keys] at keys
    rw [validated, due]
    exact (List.map_injective_iff.mpr (Option.some_injective Nat) keys).symm
  have passes := passes_fires discreet s.2.scheduler.due (0, s)
  have run : (act observe s .run).2 = (s.2.scheduler.due.foldl (fire observe) (0, s)).2.2 := rfl
  refine ⟨starts, ?_, passes, ?_⟩
  · rw [run, validated, due]
    exact last
  · rw [run, ← starts, validated, due]
    exact statements

theorem tracks_invoke (discreet : Discreet observe) (tracks : Tracks text delay log s.2) (c : Call) :
    Tracks text delay (log ++ noted observe s c) (invoke observe s c).2 := by
  cases c with
  | edit place =>
    cases found : s.2.statements.atPosition? place with
    | none =>
      have same : s.2.notifyEdit place = s.2 := by rw [notifyEdit, found]
      show Tracks text delay (log ++ (Option.map _ (s.2.statements.atPosition? place)).toList) (s.2.notifyEdit place)
      rw [same, found, Option.map_none, Option.toList_none, List.append_nil]
      exact tracks
    | some e =>
      show Tracks text delay (log ++ (Option.map _ (s.2.statements.atPosition? place)).toList) (s.2.notifyEdit place)
      rw [found, Option.map_some, Option.toList_some]
      exact tracks.edit found
  | wait elapsed =>
    show Tracks text delay (log ++ []) _
    rw [List.append_nil]
    exact tracks.wait elapsed
  | run => exact (tracks.run discreet).2.1

theorem tracks_invokeAll (discreet : Discreet observe) (tracks : Tracks text delay log s.2) (calls : List Call) :
    Tracks text delay (log ++ notes observe s calls) (invokeAll observe s calls).2 := by
  induction calls generalizing s log with
  | nil =>
    show Tracks text delay (log ++ []) s.2
    rw [List.append_nil]
    exact tracks
  | cons c calls ih =>
    rw [notes, ← List.append_assoc]
    exact ih (tracks_invoke discreet tracks c)

theorem Tracks.pending (tracks : Tracks text delay log h) : h.scheduler.queue.pending = (waiting log).length := by
  have lengths := congrArg List.length tracks.timed.stamps
  rw [List.length_map, List.length_map] at lengths
  exact lengths

/-- Whatever is edited in a text that stays, and however the clock goes forward: a position points at the same
statement all the time; a run validates the statements whose last edit is as old as the delay and was not followed by a
validation, each once and in the order of these edits; and as many timers wait as there are statements that were edited
since their validation. -/
theorem fixed_text_debounced (discreet : Discreet observe) (options : HighlighterOptions) (level : LogLevel) (note : σ)
    (time : Int) (text : Bytes) (calls : List Call) :
    let start := (note, ((new options level).setClock time).update text)
    let before := invokeAll observe start calls
    let log := notes observe start calls
    let due := overdue options.debounce before.2.scheduler.now (waiting log)
    let after := invoke observe before .run
    (∀ p x, Points before.2.statements.statements p x ↔ Points (Statement.parse text) p x) ∧
    (∀ x moment, (x, moment) ∈ waiting log ↔
      ∃ earlier later, log = earlier ++ .edited x moment :: later ∧ ∀ n ∈ later, n.start ≠ x) ∧
    ((waiting log).map (·.1)).Nodup ∧
    before.2.scheduler.queue.pending = (waiting log).length ∧
    (validated observe before .run).map (·.start) = due.map (·.1) ∧
    after.2.passes = before.2.passes + due.length ∧
    after.2.statements.statements = before.2.statements.statements.map fun s =>
      if s.start ∈ due.map (·.1) then checked s else s := by
  intro start before log due after
  have tracks : Tracks text options.debounce log before.2 :=
    tracks_invokeAll (s := start) discreet (tracks_new options level time text) calls
  obtain ⟨starts, _, passes, statements⟩ := tracks.run discreet
  have length := congrArg List.length starts
  rw [List.length_map, List.length_map] at length
  rw [length] at passes
  exact ⟨tracks.places, fun x moment => mem_waiting, nodup_waiting log, tracks.pending, starts, passes, statements⟩

/-- The last edit is in the gap between two statements of a line, and restarts the quiet period of the first. -/
def gapped : List Call := [.edit ⟨0, 0⟩, .wait 50, .edit ⟨0, 5⟩, .wait 10, .edit ⟨0, 3⟩, .wait 190]

theorem shared_line_debounced :
    Discreet Checker.silent ∧
      let start := ((), ((new {} .off).setClock 0).update (ascii "a;   b;"))
      let before := invokeAll Checker.silent start gapped
      waiting (notes Checker.silent start gapped) = [(5, 50), (0, 60)] ∧
        before.2.scheduler.queue.pending = 2 ∧
        (validated Checker.silent before .run).map (·.start) = [5] ∧
        (invoke Checker.silent before .run).2.passes = before.2.passes + 1 := by
  have discreet : Discreet Checker.silent := fun _ _ => rfl
  obtain ⟨_, _, _, pending, starts, passes, _⟩ :=
    fixed_text_debounced discreet {} .off () 0 (ascii "a;   b;") gapped
  refine ⟨discreet, ?_⟩
  intro start before
  have waits : waiting (notes Checker.silent start gapped) = [(5, 50), (0, 60)] := by decide +kernel
  have now : before.2.scheduler.now = 250 := by decide +kernel
  rw [waits, now] at starts passes
  rw [waits] at pending
  exact ⟨waits, pending, starts, passes⟩

end Highlighter
end QueryService
