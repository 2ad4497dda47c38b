import QueryService.Proofs.Document.Inside

/-!
# The selected text

Edits leave selections where they are, so the places of one may lie outside the document when its text is read. Each
is brought inside then on its own, and what is selected is the text between the two (`textUpTo_between`), unless the
selection began in the last line or below and ended further down: its end may come before its beginning then, and the
rest of the text is taken instead (`selectedText_covers`).
-/

namespace QueryService
namespace Document

variable {d : Document} {a b : Position} {s : Selection}

/-! ### The text between two places -/

/-- The number of bytes before a place. -/
def offset (d : Document) (p : Position) : Nat := (d.textUpTo p).length

theorem take_lines_split (inside : d.Inside b) (above : a.line < b.line) :
    d.lines.take b.line =
      d.lines.take a.line ++ d.lineText a.line :: (d.lines.take b.line).drop (a.line + 1) := by
  have short : a.line < (d.lines.take b.line).length := by
    rw [List.length_take_of_le (Nat.le_of_lt inside.1)]
    exact above
  have split := lines_split (d := { d with lines := d.lines.take b.line }) short
  have own : (d.lines.take b.line).getD a.line [] = d.lineText a.line := by
    rw [lineText, List.getD_eq_getElem?_getD, List.getD_eq_getElem?_getD, List.getElem?_take_of_lt above]
  rw [lineText, own, List.take_take, Nat.min_eq_left (Nat.le_of_lt above)] at split
  exact split

/-- What lies between two places in order is what the text up to the second has more than that up to the first. -/
theorem textUpTo_between (begins : d.Inside a) (ends : d.Inside b) (ordered : b.before a = false) :
    d.textUpTo b = d.textUpTo a ++ d.between a b := by
  have upToA := textUpTo_focus (lines_split begins.1) (List.length_take_of_le (Nat.le_of_lt begins.1))
  have upToB := textUpTo_focus (lines_split ends.1) (List.length_take_of_le (Nat.le_of_lt ends.1))
  rcases Position.not_before_iff.mp ordered with above | ⟨same, left⟩
  -- On one line it is a piece of that line; otherwise it is put together again from lines that a break separates.
  · have joined := joinLines_focus ((d.lineText a.line).drop a.column :: (d.lines.take b.line).drop (a.line + 1))
      ((d.lineText b.line).take b.column) []
    have own := List.take_append_drop a.column (d.lineText a.line)
    rw [preceded_nil, List.append_nil, followed_cons] at joined
    rw [take_lines_split ends above, followed_append, followed_cons] at upToB
    rw [between, if_neg (Nat.ne_of_lt above), joined, upToA, upToB]
    simp only [List.append_assoc]
    rw [← List.append_assoc (List.take a.column _), own]
  · have columns : a.column + (b.column - a.column) = b.column := Nat.add_sub_cancel' left
    rw [between, if_pos same, if_neg (Nat.not_lt.mpr left), upToA, upToB, ← same, List.append_assoc, ← List.take_add,
      columns]

theorem offset_le (begins : d.Inside a) (ends : d.Inside b) (ordered : b.before a = false) :
    d.offset a ≤ d.offset b := by
  rw [offset, offset, textUpTo_between begins ends ordered, List.length_append]
  exact Nat.le_add_right _ _

theorem extract_between (begins : d.Inside a) (ends : d.Inside b) (ordered : b.before a = false) :
    d.text.extract (d.offset a) (d.offset b) = d.between a b := by
  have reaches := textUpTo_between begins ends ordered
  have size : d.offset b - d.offset a = (d.between a b).length := by
    rw [offset, offset, reaches, List.length_append, Nat.add_sub_cancel_left]
  rw [List.extract_eq_take_drop, size, text_split ends, reaches, offset, List.append_assoc, List.drop_left,
    List.take_left]

/-- In the last line, what lies between two places the wrong way round is the rest of the text. -/
theorem between_reversed (begins : d.Inside a) (final : a.line + 1 = d.lineCount) (same : a.line = b.line)
    (reversed : b.column < a.column) : d.between a b = d.text.drop (d.offset a) := by
  have last : d.lines.drop (a.line + 1) = [] := by
    rw [final]
    exact List.drop_length
  rw [between, if_pos same, if_pos reversed, text_split begins, offset, List.drop_left, last, preceded_nil,
    List.append_nil]

/-! ### Ordered selections -/

/-- A command sets no selection that ends before it begins. -/
def Command.Ordered : Command → Prop
  | .setSelections selections => ∀ s ∈ selections, s.stop.before s.start = false
  | _ => True

/-- A document that commands make of some text, without a selection that ends before it begins. -/
inductive Orderly : Document → Prop where
  | opened (text : Bytes) : Orderly (ofText text)
  | performed {d : Document} (reached : Orderly d) (command : Command) (ordered : command.Ordered) :
    Orderly (d.perform command).1

theorem Orderly.reachable (orderly : d.Orderly) : d.Reachable := by
  induction orderly with
  | opened text => exact .opened text
  | performed _ _ _ ih => exact .performed ih _

theorem ordered_perform (inhabited : d.lines ≠ []) (held : ∀ s ∈ d.selections, s.stop.before s.start = false)
    {command : Command} (ordered : command.Ordered) :
    ∀ s ∈ (d.perform command).1.selections, s.stop.before s.start = false := by
  cases command with
  | select a b =>
    obtain ⟨s, selections, inOrder, _⟩ := exists_selection inhabited a b
    rw [perform, selections, List.forall_mem_singleton]
    exact inOrder
  | setSelections selections => exact ordered
  | clearSelections =>
    intro s member
    cases member
  | delete a b =>
    by_cases both : d.Inside a ∧ d.Inside b
    · rw [perform, delete_of_inside both.1 both.2]
      cases b.before a <;> exact held
    · obtain ⟨reason, refused⟩ := delete_of_outside both
      rw [perform, refused]
      exact held
  | moveCursor p =>
    rw [perform, moveCursor]
    cases d.check p <;> exact held
  | line index =>
    rw [perform]
    split <;> exact held
  | _ => exact held

theorem Orderly.ordered (orderly : d.Orderly) : ∀ s ∈ d.selections, s.stop.before s.start = false := by
  induction orderly with
  | opened text => exact nofun
  | performed reached _ ordered ih => exact ordered_perform reached.reachable.lined.inhabited ih ordered

/-! ### Selections brought inside -/

/-- A selection is turned round when it is brought inside exactly if it begins in the last line or below, ends
further down, and its end has the lesser column there. -/
theorem clamp_before_iff (ordered : s.stop.before s.start = false) :
    (d.clamp s.stop).before (d.clamp s.start) = true ↔
      d.lineCount ≤ s.start.line + 1 ∧ s.start.line < s.stop.line ∧
        (d.clamp s.stop).column < (d.clamp s.start).column := by
  have lines (p : Position) : (d.clamp p).line = min p.line (d.lineCount - 1) := rfl
  rw [← Bool.not_eq_false, Position.not_before_iff, lines, lines]
  rcases Position.not_before_iff.mp ordered with above | ⟨same, left⟩
  · omega
  · have columns : (d.clamp s.start).column ≤ (d.clamp s.stop).column := by
      rw [clamp, clamp, same]
      exact Nat.le_min.mpr ⟨Nat.le_trans (Nat.min_le_left _ _) left, Nat.min_le_right _ _⟩
    omega

/-- Turned round, a selection is in the last line. -/
theorem clamp_last_line (inhabited : d.lines ≠ []) (final : d.lineCount ≤ s.start.line + 1)
    (later : s.start.line < s.stop.line) :
    (d.clamp s.start).line + 1 = d.lineCount ∧ (d.clamp s.start).line = (d.clamp s.stop).line := by
  have lines (p : Position) : (d.clamp p).line = min p.line (d.lineCount - 1) := rfl
  have some : 0 < d.lineCount := List.length_pos_iff.mpr inhabited
  rw [lines, lines]
  omega

theorem selectedText_of_selection (current : d.currentSelection = some s) (inhabited : d.lines ≠ []) :
    d.selectedText = d.between (d.clamp s.start) (d.clamp s.stop) := by
  rw [selectedText, current]
  dsimp only
  split
  · rename_i same
    have place := textUpTo_between (inside_clamp inhabited s.start) (inside_clamp inhabited s.start)
      (Position.not_before_iff.mpr (Or.inr ⟨rfl, Nat.le_refl _⟩))
    rw [← same]
    exact (List.append_right_eq_self.mp place.symm).symm
  · rfl

/-- With no selection, nothing is selected. Otherwise it is what lies between the two places of the selection brought
inside, as long as the one stays before the other; if the selection begins in the last line or below, ends further
down and has the lesser column there, it is the rest of the text behind the later of them. -/
theorem selectedText_covers (orderly : d.Orderly) :
    (d.currentSelection = none → d.selectedText = []) ∧
    ∀ s, d.currentSelection = some s →
      let a := d.clamp s.start
      let b := d.clamp s.stop
      let first := if b.before a then b else a
      let last := if b.before a then a else b
      let covered := d.text.extract (d.offset first) (d.offset last)
      d.offset first ≤ d.offset last ∧
        (b.before a = true ↔ d.lineCount ≤ s.start.line + 1 ∧ s.start.line < s.stop.line ∧ b.column < a.column) ∧
        d.selectedText = (if b.before a then d.text.drop (d.offset last) else covered) ∧
        (d.selectedText = covered ↔ b.before a = false ∨ d.text.drop (d.offset last) = covered) ∧
        (a = b → d.selectedText = []) := by
  have inhabited := orderly.reachable.lined.inhabited
  refine ⟨fun none => by rw [selectedText, none], fun s current => ?_⟩
  intro a b
  have begins : d.Inside a := inside_clamp inhabited s.start
  have ends : d.Inside b := inside_clamp inhabited s.stop
  have turned : b.before a = true ↔
      d.lineCount ≤ s.start.line + 1 ∧ s.start.line < s.stop.line ∧ b.column < a.column :=
    clamp_before_iff (orderly.ordered s (List.mem_of_head? current))
  have read : d.selectedText = d.between a b := selectedText_of_selection current inhabited
  cases order : b.before a with
  | false =>
    -- In order, both readings take the same piece.
    have covered := extract_between begins ends order
    rw [order] at turned
    dsimp only
    rw [if_neg Bool.false_ne_true, if_neg Bool.false_ne_true, if_neg Bool.false_ne_true, covered, read]
    refine ⟨offset_le begins ends order, turned, rfl, iff_of_true rfl (Or.inl rfl), fun same => ?_⟩
    rw [← covered, same, List.extract_eq_take_drop, Nat.sub_self, List.take_zero]
  | true =>
    -- Both ends are in the last line now, so the rest of that line is the rest of the text.
    obtain ⟨final, later, columns⟩ := turned.mp order
    obtain ⟨last, line⟩ := clamp_last_line inhabited final later
    rw [order] at turned
    dsimp only
    rw [if_pos rfl, if_pos rfl, if_pos rfl, read, between_reversed begins last line columns]
    refine ⟨offset_le ends begins (Position.before_asymm order), turned, rfl, (or_iff_right nofun).symm, fun same => ?_⟩
    rw [same] at columns
    exact absurd columns (Nat.lt_irrefl _)

/-- The line is deleted in which the selection ended. Brought inside, its end comes into the line above, to the left of
where the selection begins. -/
theorem turned_selection_misread :
    let d := (((ofText (ascii "abc\nd")).perform (.select ⟨0, 1⟩ ⟨1, 0⟩)).1.perform (.delete ⟨0, 3⟩ ⟨1, 1⟩)).1
    d.Orderly ∧ d.currentSelection = some ⟨⟨0, 1⟩, ⟨1, 0⟩, ⟨1, 0⟩⟩ ∧ d.text = ascii "abc" ∧
      d.clamp ⟨0, 1⟩ = ⟨0, 1⟩ ∧ d.clamp ⟨1, 0⟩ = ⟨0, 0⟩ ∧
      d.text.extract (d.offset ⟨0, 0⟩) (d.offset ⟨0, 1⟩) = ascii "a" ∧ d.selectedText = ascii "bc" := by
  intro d
  have orderly : d.Orderly :=
    .performed (.performed (.opened _) (.select ⟨0, 1⟩ ⟨1, 0⟩) trivial) (.delete ⟨0, 3⟩ ⟨1, 1⟩) trivial
  have current : d.currentSelection = some ⟨⟨0, 1⟩, ⟨1, 0⟩, ⟨1, 0⟩⟩ := by decide +kernel
  have begins : d.clamp ⟨0, 1⟩ = ⟨0, 1⟩ := by decide +kernel
  have ends : d.clamp ⟨1, 0⟩ = ⟨0, 0⟩ := by decide +kernel
  obtain ⟨_, _, read, _⟩ := (selectedText_covers orderly).2 _ current
  refine ⟨orderly, current, by decide +kernel, begins, ends, by decide +kernel, ?_⟩
  rw [read, begins, ends]
  decide +kernel

end Document
end QueryService
