import Mathlib.Data.List.Find
import QueryService.Proofs.Statement.Partition
import QueryService.Proofs.Statement.Pointing
import QueryService.Proofs.Text.Columns

/-!
# The statement at a cursor

A text is read forward: a later offset has a later position (`locate_before`). So a statement is touched by the
positions of the offsets it spans, the place just behind it among them, and by those of no other offset. Where one
statement ends and the next one begins, the first of them counts (`cursor_finds_statement`).
-/

namespace QueryService

/-! ### Positions in reading order -/

namespace Position

theorem before_step (p : Position) (c : UInt8) (rest : Bytes) : p.before (p.step c rest) = true := by
  rw [before_iff, step]
  split
  · exact Or.inl (Nat.lt_succ_self _)
  · exact Or.inr ⟨rfl, Nat.lt_succ_self _⟩

/-- Reading on leads to a later position. -/
theorem before_advance (p : Position) {n : Nat} {text : Bytes} (positive : 0 < n) (inside : n ≤ text.length) :
    p.before (p.advance n text) = true := by
  induction n generalizing p text with
  | zero => cases positive
  | succ n ih =>
    cases text with
    | nil => cases inside
    | cons c rest =>
      have step := before_step p c rest
      rw [advance_cons]
      rcases Nat.eq_zero_or_pos n with rfl | more
      · rwa [advance_zero]
      · exact before_trans step (ih _ more (Nat.le_of_succ_le_succ inside))

end Position

theorem locate_before {text : Bytes} {i j : Nat} (lt : i < j) (inside : j ≤ text.length) :
    (locate (lineStarts text) i).before (locate (lineStarts text) j) = true := by
  obtain ⟨n, rfl⟩ := Nat.exists_eq_add_of_le (Nat.le_of_lt lt)
  rw [locate_lineStarts (by omega), locate_lineStarts inside, Position.advance_add]
  exact Position.before_advance _ (by omega) (by rw [List.length_drop]; omega)

/-- Positions of a text are in the order of their offsets. -/
theorem locate_before_iff {text : Bytes} {i j : Nat} (inside : i ≤ text.length) (inside' : j ≤ text.length) :
    (locate (lineStarts text) i).before (locate (lineStarts text) j) = true ↔ i < j := by
  refine ⟨fun before => ?_, fun lt => locate_before lt inside'⟩
  by_contra ge
  rw [Position.before_iff] at before
  rcases Nat.eq_or_lt_of_not_lt ge with rfl | gt
  · omega
  · have reversed := locate_before gt inside
    rw [Position.before_iff] at reversed
    omega

namespace Statement

variable {text : Bytes} {s : Statement} {p : Position} {o : Nat}

theorem CutFrom.start_lt_stop (cut : s.CutFrom text) : s.start < s.stop := by
  by_contra reversed
  apply cut.inhabited
  rw [cut.code, List.extract_eq_take_drop, Nat.sub_eq_zero_of_le (Nat.le_of_not_lt reversed), List.take_zero]

/-- The offsets at which a cursor touches a statement. -/
theorem CutFrom.touches_iff (cut : s.CutFrom text) (inside : o ≤ text.length) :
    s.touches (locate (lineStarts text) o) = true ↔ s.start ≤ o ∧ o ≤ s.stop := by
  have begins : s.start ≤ text.length := Nat.le_trans (Nat.le_of_lt cut.start_lt_stop) cut.inside
  rw [touches, Bool.and_eq_true, Bool.not_eq_true', Bool.not_eq_true', ← Bool.not_eq_true, ← Bool.not_eq_true,
    cut.first, cut.last, locate_before_iff inside begins, locate_before_iff cut.inside inside, Nat.not_lt, Nat.not_lt]

theorem onLine_iff {line : Nat} : s.onLine line = true ↔ s.first.line ≤ line ∧ line ≤ s.last.line := by
  rw [onLine, Bool.and_eq_true, decide_eq_true_eq, decide_eq_true_eq]

theorem onLine_of_touches (touched : s.touches p = true) : s.onLine p.line = true := by
  rw [touches, Bool.and_eq_true, Bool.not_eq_true', Bool.not_eq_true', ← Bool.not_eq_true, ← Bool.not_eq_true,
    Position.before_iff, Position.before_iff] at touched
  rw [onLine_iff]
  omega

end Statement

/-! ### The entry at a position -/

namespace Listing

variable {l : Listing} {e : Entry} {p : Position} {text : Bytes} {fresh o : Nat} {before behind : List Entry}

theorem atPosition?_eq (l : Listing) (p : Position) : l.atPosition? p =
    (l.entries.find? (·.statement.touches p)).or (l.entries.find? (·.statement.onLine p.line)) := by
  rw [atPosition?, List.find?_filter, List.head?_filter]
  refine congrArg (Option.or · _) (List.find?_congr fun e _ => ?_)
  rw [Bool.eq_iff_iff, decide_eq_true_eq]
  exact and_iff_right_of_imp Statement.onLine_of_touches

theorem atPosition?_eq_none_iff : l.atPosition? p = none ↔
    ∀ e ∈ l.entries, ¬ (e.statement.first.line ≤ p.line ∧ p.line ≤ e.statement.last.line) := by
  rw [atPosition?_eq, Option.or_eq_none_iff, List.find?_eq_none, List.find?_eq_none]
  simp only [← Statement.onLine_iff]
  exact ⟨And.right, fun off => ⟨fun e member touched => off e member (Statement.onLine_of_touches touched), off⟩⟩

theorem onLine_of_atPosition? (found : l.atPosition? p = some e) :
    e ∈ l.entries ∧ e.statement.first.line ≤ p.line ∧ p.line ≤ e.statement.last.line := by
  refine ⟨atPosition?_mem found, Statement.onLine_iff.mp ?_⟩
  rw [atPosition?_eq] at found
  rcases Option.or_eq_some_iff.mp found with touched | ⟨_, line⟩
  · exact Statement.onLine_of_touches (by simpa using List.find?_some touched)
  · simpa using List.find?_some line

/-- The first entry that a position touches is the one found there. -/
theorem atPosition?_of_first (split : l.entries = before ++ e :: behind) (touched : e.statement.touches p = true)
    (first : ∀ q ∈ before, q.statement.touches p = false) : l.atPosition? p = some e := by
  have found : l.entries.find? (·.statement.touches p) = some e := by
    refine List.find?_eq_some_iff_append.mpr ⟨touched, before, behind, split, fun q member => ?_⟩
    rw [first q member]
    rfl
  rw [atPosition?_eq, found]
  rfl

theorem parse_cut (member : e ∈ (parse fresh text).entries) : e.statement.CutFrom text := by
  apply Statement.parse_cutFrom
  rw [← statements_parse fresh]
  exact List.mem_map_of_mem member

theorem parse_entries_ordered (fresh : Nat) (text : Bytes) :
    (parse fresh text).entries.Pairwise fun e later => e.statement.stop ≤ later.statement.start := by
  have ordered := Statement.parse_ordered text
  rw [← statements_parse fresh] at ordered
  exact List.pairwise_map.mp ordered

/-- An entry is found at an offset that it spans and that no entry before it reaches. -/
theorem atPosition?_parse (split : (parse fresh text).entries = before ++ e :: behind)
    (spanned : e.statement.start ≤ o ∧ o ≤ e.statement.stop) (unreached : ∀ q ∈ before, q.statement.stop < o) :
    (parse fresh text).atPosition? (locate (lineStarts text) o) = some e := by
  have cut (q : Entry) (member : q ∈ before ++ e :: behind) : q.statement.CutFrom text :=
    parse_cut (split ▸ member : q ∈ (parse fresh text).entries)
  have own := cut e (List.mem_append_right _ List.mem_cons_self)
  have inside := Nat.le_trans spanned.2 own.inside
  refine atPosition?_of_first split ((own.touches_iff inside).mpr spanned) fun q member => ?_
  rw [← Bool.not_eq_true, (cut q (List.mem_append_left _ member)).touches_iff inside]
  have short := unreached q member
  omega

/-- The entries before one end no later than it begins, and all but the last of them end earlier. -/
theorem parse_earlier (split : (parse fresh text).entries = before ++ e :: behind) {q : Entry} (member : q ∈ before) :
    q.statement.stop ≤ e.statement.start ∧ (before.getLast? = some q ∨ q.statement.stop < e.statement.start) := by
  have ordered := parse_entries_ordered fresh text
  rw [split] at ordered
  obtain ⟨among, _, across⟩ := List.pairwise_append.mp ordered
  refine ⟨across q member e List.mem_cons_self, ?_⟩
  obtain ⟨init, last, rfl⟩ := (List.eq_nil_or_concat' before).resolve_left (List.ne_nil_of_mem member)
  rcases List.mem_append.mp member with inner | final
  · right
    have listed : last ∈ (parse fresh text).entries := by simp [split]
    have cut := parse_cut listed
    have first := (List.pairwise_append.mp among).2.2 q inner last List.mem_cons_self
    have second := across last (by simp) e List.mem_cons_self
    have long := cut.start_lt_stop
    omega
  · left
    rw [List.getLast?_concat, List.mem_singleton.mp final]

end Listing

/-- A cursor in a statement or just behind it finds the statement; where it begins, it is found unless the one
before it ends there. A line without a statement, and no other, has none to find. -/
theorem cursor_finds_statement (fresh : Nat) (text : Bytes) :
    let statements := Listing.parse fresh text
    (∀ e ∈ statements.entries, ∀ o, e.statement.start < o → o ≤ e.statement.stop →
      statements.atPosition? (locate (lineStarts text) o) = some e) ∧
    (∀ before e behind, statements.entries = before ++ e :: behind →
      (∀ q, before.getLast? = some q → q.statement.stop = e.statement.start →
        statements.atPosition? (locate (lineStarts text) e.statement.start) = some q) ∧
      ((∀ q, before.getLast? = some q → q.statement.stop ≠ e.statement.start) →
        statements.atPosition? (locate (lineStarts text) e.statement.start) = some e)) ∧
    (∀ p, statements.atPosition? p = none ↔
      ∀ e ∈ statements.entries, ¬ (e.statement.first.line ≤ p.line ∧ p.line ≤ e.statement.last.line)) ∧
    ∀ p e, statements.atPosition? p = some e →
      e ∈ statements.entries ∧ e.statement.first.line ≤ p.line ∧ p.line ≤ e.statement.last.line := by
  intro statements
  have within (e : Entry) (member : e ∈ statements.entries) (o : Nat) (behind : e.statement.start < o)
      (reached : o ≤ e.statement.stop) : statements.atPosition? (locate (lineStarts text) o) = some e := by
    obtain ⟨before, later, split⟩ := List.append_of_mem member
    refine Listing.atPosition?_parse split ⟨Nat.le_of_lt behind, reached⟩ fun q earlier => ?_
    exact Nat.lt_of_le_of_lt (Listing.parse_earlier split earlier).1 behind
  refine ⟨within, fun before e behind split => ⟨fun q last ends => ?_, fun apart => ?_⟩, fun p => ?_, fun p e => ?_⟩
  · have member : q ∈ statements.entries := by
      rw [split]
      exact List.mem_append_left _ (List.mem_of_getLast? last)
    rw [← ends]
    exact within q member _ (Listing.parse_cut member).start_lt_stop (Nat.le_refl _)
  · have own : e ∈ statements.entries := by simp [split]
    refine Listing.atPosition?_parse split ⟨Nat.le_refl _, Nat.le_of_lt (Listing.parse_cut own).start_lt_stop⟩ ?_
    intro q earlier
    obtain ⟨short, last | shorter⟩ := Listing.parse_earlier split earlier
    · exact Nat.lt_of_le_of_ne short (apart q last)
    · exact shorter
  · exact Listing.atPosition?_eq_none_iff
  · exact Listing.onLine_of_atPosition?

/-- Two statements that touch, the second over a break of two bytes, and a third one behind an empty line. -/
theorem touching_statements_found :
    let text := ascii "a;b\r\nc;\n\r d"
    let statements := Listing.parse 7 text
    ∃ x y z, statements.entries = [x, y, z] ∧
      statements.atPosition? (locate (lineStarts text) 4) = some y ∧
      statements.atPosition? (locate (lineStarts text) 2) = some x ∧
      statements.atPosition? (locate (lineStarts text) 10) = some z ∧
      statements.atPosition? ⟨2, 0⟩ = none := by
  intro text statements
  obtain ⟨within, edge, missing, _⟩ := cursor_finds_statement 7 text
  have places : statements.entries.map (fun e => (e.statement.start, e.statement.stop)) = [(0, 2), (2, 7), (10, 11)] := by
    decide +kernel
  obtain ⟨x, y, z, entries⟩ := List.length_eq_three.mp (by simpa using congrArg List.length places)
  rw [entries] at places
  simp only [List.map_cons, List.map_nil, List.cons.injEq, Prod.mk.injEq, and_true] at places
  obtain ⟨⟨_, xStop⟩, ⟨yStart, yStop⟩, zStart, _⟩ := places
  have touching := (edge [x] y [z] entries).1 x rfl (by rw [xStop, yStart])
  have apart := (edge [x, y] z [] entries).2 fun q last => by
    rw [← Option.some.inj (show some y = some q from last), yStop, zStart]
    decide
  rw [yStart] at touching
  rw [zStart] at apart
  refine ⟨x, y, z, entries, within y (by rw [entries]; simp) 4 (by omega) (by omega), touching, apart, ?_⟩
  exact (missing ⟨2, 0⟩).mpr (by decide +kernel)

end QueryService
