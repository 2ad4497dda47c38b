import QueryService.Proofs.Grammar.Resumption

/-!
# The report on an alignment

An alignment that fits is reported without a complaint (`ofAlignment_of_fits`). On one that does not, each line of
the statement lacks the same, for the same reason (`ofAlignment_of_unfit`).
-/

namespace QueryService

variable {r : Rule} {tokens : List Indexed} {a : Alignment}

theorem ofAlignment_of_fits (r : Rule) (tokens : List Indexed) (fits : a.fits = true) :
    Report.ofAlignment r tokens a =
      { rule := some r
        expected := (a.remaining.head?.map Element.expectation).getD []
        completions := Alignment.completions a.remaining } := by
  unfold Report.ofAlignment
  exact if_pos fits

theorem ofAlignment_of_unfit (r : Rule) (tokens : List Indexed) (unfit : a.fits = false) :
    ∃ missing defect message,
      Report.ofAlignment r tokens a =
        { valid := false
          invalidTokens := a.refused.map (·.index)
          invalidLines := linesOf tokens
          expected := (a.remaining.head?.map Element.expectation).getD []
          completions := Alignment.completions a.remaining
          message := some message
          shortfalls := (linesOf tokens).map (⟨·, missing, defect⟩) } ∧
      (defect = .incomplete ↔ a.required ≠ []) ∧ (defect = .invalidSequence ↔ missing = []) := by
  rw [Alignment.refused, List.map_append, List.map_map]
  unfold Report.ofAlignment
  rw [unfit, if_neg Bool.false_ne_true]
  refine ⟨_, _, _, rfl, ?_, ?_⟩
  · cases a.required <;> cases a.misplaced <;> simp
  · cases a.required <;> cases a.misplaced <;> simp

@[simp] theorem ofAlignment_valid (r : Rule) (tokens : List Indexed) (a : Alignment) :
    (Report.ofAlignment r tokens a).valid = a.fits := by
  cases fits : a.fits with
  | true => rw [ofAlignment_of_fits r tokens fits]
  | false =>
    obtain ⟨_, _, _, report, _⟩ := ofAlignment_of_unfit r tokens fits
    rw [report]

theorem ofAlignment_rule (fits : a.fits = true) : (Report.ofAlignment r tokens a).rule = some r := by
  rw [ofAlignment_of_fits r tokens fits]

theorem ofAlignment_expected (r : Rule) (tokens : List Indexed) (a : Alignment) :
    (Report.ofAlignment r tokens a).expected = (a.remaining.head?.map Element.expectation).getD [] := by
  cases fits : a.fits with
  | true => rw [ofAlignment_of_fits r tokens fits]
  | false =>
    obtain ⟨_, _, _, report, _⟩ := ofAlignment_of_unfit r tokens fits
    rw [report]

theorem ofAlignment_completions (r : Rule) (tokens : List Indexed) (a : Alignment) :
    (Report.ofAlignment r tokens a).completions = Alignment.completions a.remaining := by
  cases fits : a.fits with
  | true => rw [ofAlignment_of_fits r tokens fits]
  | false =>
    obtain ⟨_, _, _, report, _⟩ := ofAlignment_of_unfit r tokens fits
    rw [report]

theorem ofAlignment_invalidTokens (r : Rule) (tokens : List Indexed) (a : Alignment) :
    (Report.ofAlignment r tokens a).invalidTokens = a.refused.map (·.index) := by
  cases fits : a.fits with
  | true =>
    rw [ofAlignment_of_fits r tokens fits, Alignment.refused_of_fits fits]
    rfl
  | false =>
    obtain ⟨_, _, _, report, _⟩ := ofAlignment_of_unfit r tokens fits
    rw [report]

/-- What does not fit and has refused nothing breaks off too early. -/
theorem ofAlignment_incomplete (unfit : a.fits = false) (unrefused : a.refused = []) :
    ∀ s ∈ (Report.ofAlignment r tokens a).shortfalls, s.defect = .incomplete := by
  obtain ⟨misplaced, surplus⟩ := List.append_eq_nil_iff.mp unrefused
  have needed : a.required ≠ [] := by
    simpa [Alignment.fits, List.map_eq_nil_iff.mp misplaced, surplus] using unfit
  obtain ⟨missing, defect, message, report, incomplete, _⟩ := ofAlignment_of_unfit r tokens unfit
  rw [report]
  intro s member
  obtain ⟨line, _, rfl⟩ := List.mem_map.mp member
  exact incomplete.mpr needed

end QueryService
