import QueryService.Proofs.Document.Buffer

/-!
# What stays inside a document

Whatever commands a document was given, it has a line, no line has a break in it, its cursor is inside,
and a selection that it makes is (`stays_inside`). It refuses a command exactly if a place that the
command needs is outside (`refused_iff`), and is left as it was then.
-/

namespace QueryService
namespace Document

variable {d : Document} {p first last : Position}

/-! ### The cursor -/

theorem inside_focus {line : Bytes} {above below : List Bytes} (lines : d.lines = above ++ line :: below)
    (number : above.length = p.line) (column : p.column ≤ line.length) : d.Inside p := by
  have own : d.lineText p.line = line := by simp [lineText, lines, ← number]
  refine ⟨?_, own ▸ column⟩
  rw [lineCount, lines, List.length_append, List.length_cons]
  omega

theorem cursor_insert (d : Document) (p : Position) (text : Bytes) :
    (d.insert p text).Inside (d.insert p text).cursor := by
  obtain ⟨above, front, back, below, room⟩ := exists_room d p
  obtain ⟨before, last, lines, place, _⟩ := room.exists_line_insert text
  rw [place]
  exact inside_focus lines rfl (by simp)

theorem cursor_cut (begins : d.Inside first) (last : Position) :
    { d with lines := d.cut first last, cursor := first }.Inside first := by
  obtain ⟨line, column⟩ := begins
  refine inside_focus rfl (List.length_take_of_le (Nat.le_of_lt line)) ?_
  rw [List.length_append, List.length_take_of_le column]
  exact Nat.le_add_right _ _

theorem cursor_perform (inside : d.Inside d.cursor) (command : Command) :
    (d.perform command).1.Inside (d.perform command).1.cursor := by
  cases command with
  | insert p text => exact cursor_insert d p text
  | delete a b =>
    by_cases both : d.Inside a ∧ d.Inside b
    · rw [perform, delete_of_inside both.1 both.2]
      cases b.before a with
      | true => exact cursor_cut both.2 a
      | false => exact cursor_cut both.1 b
    · obtain ⟨reason, refused⟩ := delete_of_outside both
      rw [perform, refused]
      exact inside
  | moveCursor p =>
    rw [perform, moveCursor]
    cases checked : d.check p with
    | ok => exact (check_eq_ok_iff d p).mp checked
    | error => exact inside
  | line index =>
    rw [perform]
    split <;> exact inside
  | _ => exact inside

theorem Reachable.cursor_inside (reachable : d.Reachable) : d.Inside d.cursor := by
  induction reachable with
  | opened text => exact ⟨List.length_pos_iff.mpr (lined_ofText text).inhabited, Nat.zero_le _⟩
  | performed _ command ih => exact cursor_perform ih command

/-! ### Selections -/

theorem clamp_of_inside (inside : d.Inside p) : d.clamp p = p := by
  obtain ⟨line, column⟩ := inside
  have same : min p.line (d.lineCount - 1) = p.line := by omega
  rw [clamp, same, Nat.min_eq_left column]

theorem inside_clamp (inhabited : d.lines ≠ []) (p : Position) : d.Inside (d.clamp p) := by
  have some : 0 < d.lineCount := List.length_pos_iff.mpr inhabited
  refine ⟨?_, Nat.min_le_right _ _⟩
  show min p.line (d.lineCount - 1) < d.lineCount
  omega

/-- The selection between two places is made of them, in their order and brought inside. -/
theorem exists_selection (inhabited : d.lines ≠ []) (a b : Position) : ∃ s, (d.select a b).selections = [s] ∧
    s.stop.before s.start = false ∧ d.Inside s.start ∧ d.Inside s.stop ∧ s.active = s.stop ∧
    (d.Inside a → d.Inside b → s.start = a ∧ s.stop = b ∨ s.start = b ∧ s.stop = a) := by
  have insideA := inside_clamp inhabited a
  have insideB := inside_clamp inhabited b
  cases reversed : (d.clamp b).before (d.clamp a) with
  | true =>
    refine ⟨⟨d.clamp b, d.clamp a, d.clamp a⟩, ?_, Position.before_asymm reversed, insideB, insideA, rfl, fun first second => ?_⟩
    · simp only [select, reversed, if_true]
    · exact Or.inr ⟨clamp_of_inside second, clamp_of_inside first⟩
  | false =>
    refine ⟨⟨d.clamp a, d.clamp b, d.clamp b⟩, ?_, reversed, insideA, insideB, rfl, fun first second => ?_⟩
    · simp only [select, reversed, Bool.false_eq_true, if_false]
    · exact Or.inl ⟨clamp_of_inside first, clamp_of_inside second⟩

/-! ### Refusals -/

/-- Whether the places that a command needs are inside a document. -/
def Command.Fits (d : Document) : Command → Prop
  | .line index => index < d.lineCount
  | .delete a b => d.Inside a ∧ d.Inside b
  | .moveCursor p => d.Inside p
  | _ => True

theorem perform_of_fits {command : Command} (fits : command.Fits d) (reason : OutOfRange) :
    (d.perform command).2 ≠ .refused reason := by
  intro refused
  cases command with
  | line index =>
    have within : index < d.lineCount := fits
    rw [perform, line, if_pos within] at refused
    cases refused
  | delete a b =>
    rw [perform, delete_of_inside fits.1 fits.2] at refused
    cases refused
  | moveCursor p =>
    rw [perform, moveCursor, check_of_inside fits] at refused
    cases refused
  | _ => cases refused

theorem perform_of_unfit {command : Command} (unfit : ¬ command.Fits d) :
    ∃ reason, d.perform command = (d, .refused reason) := by
  cases command with
  | line index =>
    have beyond : ¬ index < d.lineCount := unfit
    rw [perform, line, if_neg beyond]
    exact ⟨_, rfl⟩
  | delete a b =>
    obtain ⟨reason, refused⟩ := delete_of_outside unfit
    exact ⟨reason, by rw [perform, refused]; rfl⟩
  | moveCursor p =>
    obtain ⟨reason, refused⟩ := check_of_outside unfit
    exact ⟨reason, by rw [perform, moveCursor, refused]; rfl⟩
  | _ => exact absurd trivial unfit

theorem refused_iff (d : Document) (command : Command) :
    (∃ reason, (d.perform command).2 = .refused reason) ↔ ¬ command.Fits d := by
  constructor
  · rintro ⟨reason, refused⟩ fits
    exact perform_of_fits fits reason refused
  · intro unfit
    obtain ⟨reason, same⟩ := perform_of_unfit unfit
    exact ⟨reason, by rw [same]⟩

/-- Commands keep lines without breaks and a cursor inside, select inside, and are refused without effect
exactly where they need a place outside. -/
theorem stays_inside (reachable : d.Reachable) :
    (d.lines ≠ [] ∧ ∀ line ∈ d.lines, Byte.cr ∉ line ∧ Byte.lf ∉ line) ∧
    (d.cursor.line < d.lineCount ∧ d.cursor.column ≤ (d.lineText d.cursor.line).length) ∧
    (ofText d.text).lines = d.lines ∧
    (∀ a b, (d.perform (.select a b)).1.lines = d.lines ∧ ∃ s, (d.perform (.select a b)).1.selections = [s] ∧
      s.stop.before s.start = false ∧ d.Inside s.start ∧ d.Inside s.stop ∧ s.active = s.stop ∧
      (d.Inside a → d.Inside b → s.start = a ∧ s.stop = b ∨ s.start = b ∧ s.stop = a)) ∧
    (∀ index, (∃ reason, (d.perform (.line index)).2 = .refused reason) ↔ d.lineCount ≤ index) ∧
    (∀ a b, (∃ reason, (d.perform (.delete a b)).2 = .refused reason) ↔ ¬ (d.Inside a ∧ d.Inside b)) ∧
    (∀ p, (∃ reason, (d.perform (.moveCursor p)).2 = .refused reason) ↔ ¬ d.Inside p) ∧
    ∀ command reason, (d.perform command).2 = .refused reason → (d.perform command).1 = d := by
  have lined := reachable.lined
  refine ⟨⟨lined.inhabited, fun line member => ?_⟩, reachable.cursor_inside,
    splitLines_joinLines lined.inhabited lined.unbroken, fun a b => ⟨rfl, exists_selection lined.inhabited a b⟩,
    fun index => ?_, fun a b => refused_iff d (.delete a b), fun p => refused_iff d (.moveCursor p),
    fun command reason refused => ?_⟩
  · have unbroken := lined.unbroken line member
    exact ⟨fun back => absurd (unbroken _ back) (by decide), fun feed => absurd (unbroken _ feed) (by decide)⟩
  · rw [refused_iff]
    exact Nat.not_lt
  · have unfit := (refused_iff d command).mp ⟨reason, refused⟩
    obtain ⟨_, same⟩ := perform_of_unfit unfit
    rw [same]

/-- A text pasted below the last line, and a deletion refused after that. -/
theorem remote_paste_stays_inside :
    let d := (((ofText (ascii "ab\r\ncd")).perform (.insert ⟨3, 2⟩ (ascii "x\ry"))).1.perform
      (.delete ⟨0, 0⟩ ⟨9, 9⟩)).1
    d.Reachable ∧ d.cursor = ⟨4, 1⟩ ∧ d.cursor.line < d.lineCount ∧ (ofText d.text).lines = d.lines ∧
      (∃ reason, (d.perform (.moveCursor ⟨4, 2⟩)).2 = .refused reason) ∧
      ∃ s, (d.perform (.select ⟨7, 0⟩ ⟨0, 5⟩)).1.selections = [s] ∧ s.stop.before s.start = false := by
  intro d
  have reachable : d.Reachable := .performed (.performed (.opened _) _) _
  obtain ⟨_, ⟨line, _⟩, readBack, selects, _, _, moves, _⟩ := stays_inside reachable
  obtain ⟨_, s, selected, ordered, _⟩ := selects ⟨7, 0⟩ ⟨0, 5⟩
  refine ⟨reachable, by decide +kernel, line, readBack, (moves ⟨4, 2⟩).mpr fun inside => ?_, s, selected, ordered⟩
  exact absurd inside.2 (by decide +kernel)

end Document
end QueryService
