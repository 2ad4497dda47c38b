import QueryService.Proofs.Grammar.Continuation

/-!
# Reports that agree with themselves

Validation ends in one of four ways (`validate_outcome`): there is nothing to judge, the statement begins like
none, some candidate fits, or none does and the first one is reported. In each of them the fields of the report
tell the same story (`validate_consistent`).
-/

namespace QueryService

variable {tokens : List Token} {r : Rule} {a : Alignment}

/-! ### The ways validation ends -/

/-- A report on a token list, by the way validation ended. -/
inductive Outcome (tokens : List Token) : Report → Prop
  | blank (none : significantTokens tokens = []) : Outcome tokens {}
  | unrecognized {first : Indexed} {rest : List Indexed} (inhabited : significantIndexed tokens = first :: rest)
      (unknown : Rule.candidates (statementText (significantTokens tokens)) = []) :
      Outcome tokens (.unrecognized first.token (first :: rest))
  | fitted {r : Rule} (inhabited : significantTokens tokens ≠ [])
      (candidate : r ∈ Rule.candidates (statementText (significantTokens tokens)))
      (fits : (Alignment.of r.pattern (significantIndexed tokens)).fits = true) :
      Outcome tokens (validateAgainst (significantIndexed tokens) r)
  | unfitted {first : Rule} (inhabited : significantTokens tokens ≠ [])
      (foremost : (Rule.candidates (statementText (significantTokens tokens))).head? = some first)
      (unfit : (Alignment.of first.pattern (significantIndexed tokens)).fits = false) :
      Outcome tokens (validateAgainst (significantIndexed tokens) first)

theorem validate_outcome (tokens : List Token) : Outcome tokens (validate tokens) := by
  by_cases blank : significantTokens tokens = []
  · rw [validate_eq_of_blank blank]
    exact .blank blank
  cases foremost : (Rule.candidates (statementText (significantTokens tokens))).head? with
  | none =>
    have unknown := List.head?_eq_none_iff.mp foremost
    obtain ⟨first, rest, inhabited, report⟩ := validate_of_unrecognized blank unknown
    rw [report]
    exact .unrecognized inhabited unknown
  | some first =>
    by_cases fitting : ∃ r ∈ Rule.candidates (statementText (significantTokens tokens)),
        (Alignment.of r.pattern (significantIndexed tokens)).fits = true
    · obtain ⟨r, candidate, fits⟩ := fitting
      obtain ⟨q, candidate, fits, report⟩ := validate_of_fits candidate fits
      rw [report]
      exact .fitted blank candidate fits
    · have unfit (r : Rule) (candidate : r ∈ Rule.candidates (statementText (significantTokens tokens))) :
          (Alignment.of r.pattern (significantIndexed tokens)).fits = false :=
        Bool.eq_false_of_not_eq_true fun fits => fitting ⟨r, candidate, fits⟩
      rw [validate_of_unfit foremost unfit]
      exact .unfitted blank foremost (unfit first (List.mem_of_head? foremost))

/-! ### Consistency -/

namespace Report

/-- Validity, message, flagged tokens, lines and shortfalls of a report go together, and the report is about the
significant tokens of the list. -/
structure Consistent (tokens : List Token) (report : Report) : Prop where
  lines : report.invalidLines = [] ↔ report.valid = true
  shortfalls : report.shortfalls = [] ↔ report.valid = true
  message : report.message = none ↔ report.valid = true
  unflagged : report.valid = true → report.invalidTokens = []
  matched : report.rule ≠ none ↔ report.valid = true ∧ significantTokens tokens ≠ []
  flagged : ∀ i ∈ report.invalidTokens, ∃ t, tokens[i]? = some t ∧ t.isSignificant = true
  tokensAscend : report.invalidTokens.Pairwise (· < ·)
  linesAscend : report.invalidLines.Pairwise (· < ·)
  covered : report.valid = false →
    ∀ line, line ∈ report.invalidLines ↔ ∃ t ∈ significantTokens tokens, t.line = line
  /-- An alignment ends with elements that remain, since the tokens ran out, or with tokens beyond the pattern. -/
  recognized : report.valid = false →
    ∀ first, (Rule.candidates (statementText (significantTokens tokens))).head? = some first →
      let a := Alignment.of first.pattern (significantIndexed tokens)
      ∃ missing defect, report.shortfalls = report.invalidLines.map (⟨·, missing, defect⟩) ∧
        (defect = .incomplete ↔ a.surplus = [] ∧ ∃ e ∈ a.remaining, e.optional = false) ∧
        (defect = .invalidSequence ↔ missing = [])
  unrecognized : significantTokens tokens ≠ [] →
    Rule.candidates (statementText (significantTokens tokens)) = [] →
      (∀ i t, tokens[i]? = some t → t.isSignificant = true → i ∈ report.invalidTokens) ∧
      ∃ first missing, (significantTokens tokens).head? = some first ∧
        report.shortfalls = [⟨first.line, missing, .invalidSequence⟩]

end Report

/-! #### Tokens and lines -/

theorem flagged_of_sublist {flagged : List Indexed} (within : flagged.Sublist (significantIndexed tokens)) :
    (∀ i ∈ flagged.map (·.index), ∃ t, tokens[i]? = some t ∧ t.isSignificant = true) ∧
      (flagged.map (·.index)).Pairwise (· < ·) := by
  refine ⟨fun i member => ?_, List.pairwise_map.mpr ((significantIndexed_ascending tokens).sublist within)⟩
  obtain ⟨x, found, rfl⟩ := List.mem_map.mp member
  exact ⟨x.token, mem_significantIndexed_iff.mp (within.subset found)⟩

theorem Alignment.required_ne_nil : a.required ≠ [] ↔ ∃ e ∈ a.remaining, e.optional = false := by
  rw [required, Ne, List.filter_eq_nil_iff]
  simp

namespace Report

theorem consistent_blank (none : significantTokens tokens = []) : Consistent tokens {} where
  lines := iff_of_true rfl rfl
  shortfalls := iff_of_true rfl rfl
  message := iff_of_true rfl rfl
  unflagged _ := rfl
  matched := iff_of_false (fun matched => matched rfl) fun both => both.2 none
  flagged := nofun
  tokensAscend := List.Pairwise.nil
  linesAscend := List.Pairwise.nil
  covered := nofun
  recognized := nofun
  unrecognized inhabited := absurd none inhabited

theorem consistent_unrecognized {first : Indexed} {rest : List Indexed}
    (indexed : significantIndexed tokens = first :: rest)
    (unknown : Rule.candidates (statementText (significantTokens tokens)) = []) :
    Consistent tokens (.unrecognized first.token (first :: rest)) := by
  rw [← indexed]
  have lines : linesOf (significantIndexed tokens) ≠ [] := linesOf_ne_nil (by rw [indexed]; exact List.cons_ne_nil _ _)
  have texts := significantIndexed_tokens tokens
  obtain ⟨significant, ascending⟩ := flagged_of_sublist (List.Sublist.refl (significantIndexed tokens))
  refine
    { lines := iff_of_false lines Bool.false_ne_true
      shortfalls := iff_of_false (List.cons_ne_nil _ _) Bool.false_ne_true
      message := iff_of_false (Option.some_ne_none _) Bool.false_ne_true
      unflagged := fun valid => absurd valid Bool.false_ne_true
      matched := iff_of_false (fun matched => matched rfl) fun both => Bool.false_ne_true both.1
      flagged := significant
      tokensAscend := ascending
      linesAscend := Ascending.ascending_ofList _
      covered := fun _ line => mem_linesOf_significant
      recognized := fun _ candidate foremost => ?_
      unrecognized := fun _ _ => ⟨fun i t there important => ?_, first.token, _, ?_, rfl⟩ }
  · rw [unknown] at foremost
    cases foremost
  · have member : (⟨i, t⟩ : Indexed) ∈ significantIndexed tokens := mem_significantIndexed_iff.mpr ⟨there, important⟩
    exact List.mem_map_of_mem member
  · rw [← texts, indexed]
    rfl

theorem consistent_fitted (r : Rule) (inhabited : significantTokens tokens ≠ []) (fits : a.fits = true)
    (known : Rule.candidates (statementText (significantTokens tokens)) ≠ []) :
    Consistent tokens (.ofAlignment r (significantIndexed tokens) a) := by
  rw [ofAlignment_of_fits r _ fits]
  exact
    { lines := iff_of_true rfl rfl
      shortfalls := iff_of_true rfl rfl
      message := iff_of_true rfl rfl
      unflagged := fun _ => rfl
      matched := iff_of_true (Option.some_ne_none r) ⟨rfl, inhabited⟩
      flagged := nofun
      tokensAscend := List.Pairwise.nil
      linesAscend := List.Pairwise.nil
      covered := nofun
      recognized := nofun
      unrecognized := fun _ unknown => absurd unknown known }

theorem consistent_unfitted {first : Rule} (inhabited : significantTokens tokens ≠ [])
    (foremost : (Rule.candidates (statementText (significantTokens tokens))).head? = some first)
    (unfit : (Alignment.of first.pattern (significantIndexed tokens)).fits = false) :
    Consistent tokens (validateAgainst (significantIndexed tokens) first) := by
  have lines : linesOf (significantIndexed tokens) ≠ [] := by
    refine linesOf_ne_nil fun none => inhabited ?_
    rw [← significantIndexed_tokens, none]
    rfl
  obtain ⟨significant, ascending⟩ := flagged_of_sublist
    (Alignment.refused_sublist first.pattern (significantIndexed tokens))
  obtain ⟨missing, defect, message, report, incomplete, sequence⟩ :=
    ofAlignment_of_unfit first (significantIndexed tokens) unfit
  rw [validateAgainst, report]
  refine
    { lines := iff_of_false lines Bool.false_ne_true
      shortfalls := iff_of_false (fun none => lines (List.map_eq_nil_iff.mp none)) Bool.false_ne_true
      message := iff_of_false (Option.some_ne_none _) Bool.false_ne_true
      unflagged := fun valid => absurd valid Bool.false_ne_true
      matched := iff_of_false (fun matched => matched rfl) fun both => Bool.false_ne_true both.1
      flagged := significant
      tokensAscend := ascending
      linesAscend := Ascending.ascending_ofList _
      covered := fun _ line => mem_linesOf_significant
      recognized := fun _ candidate own => ?_
      unrecognized := fun _ unknown => ?_ }
  · rw [foremost] at own
    obtain rfl := Option.some.inj own
    refine ⟨missing, defect, rfl, ?_, sequence⟩
    rw [incomplete, Alignment.required_ne_nil]
    refine ⟨fun lacking => ⟨?_, lacking⟩, And.right⟩
    obtain ⟨e, remains, _⟩ := lacking
    exact (Alignment.surplus_of_remaining _ _).resolve_left (List.ne_nil_of_mem remains)
  · rw [unknown] at foremost
    cases foremost

end Report

theorem Outcome.consistent {report : Report} (outcome : Outcome tokens report) : report.Consistent tokens := by
  cases outcome with
  | blank none => exact Report.consistent_blank none
  | unrecognized indexed unknown => exact Report.consistent_unrecognized indexed unknown
  | fitted inhabited candidate fits => exact Report.consistent_fitted _ inhabited fits (List.ne_nil_of_mem candidate)
  | unfitted inhabited foremost unfit => exact Report.consistent_unfitted inhabited foremost unfit

/-- A statement that fails is marked on all the lines of its significant tokens. -/
theorem line_mem_invalidLines {t : Token} (invalid : (validate tokens).valid = false)
    (member : t ∈ significantTokens tokens) : t.line ∈ (validate tokens).invalidLines :=
  ((validate_outcome tokens).consistent.covered invalid t.line).mpr ⟨t, member, rfl⟩

/-- Every report of validation is consistent. -/
theorem validate_consistent (tokens : List Token) : (validate tokens).Consistent tokens :=
  (validate_outcome tokens).consistent

/-- A statement over three lines that breaks off lacks the same on each of them. -/
theorem unfinished_select_reported :
    let tokens := tokenize (ascii "SELECT\nDOCUMENTS\nFROM")
    (validate tokens).valid = false ∧ (validate tokens).message ≠ none ∧ (validate tokens).rule = none ∧
      ∃ missing, (validate tokens).shortfalls =
        [⟨0, missing, .incomplete⟩, ⟨1, missing, .incomplete⟩, ⟨2, missing, .incomplete⟩] ∧ missing ≠ [] := by
  intro tokens
  have invalid : (validate tokens).valid = false := by decide +kernel
  have lines : (validate tokens).invalidLines = [0, 1, 2] := by decide +kernel
  have ranOut : ∀ first ∈ (Rule.candidates (statementText (significantTokens tokens))).head?,
      (Alignment.of first.pattern (significantIndexed tokens)).surplus = [] ∧
        ∃ e ∈ (Alignment.of first.pattern (significantIndexed tokens)).remaining, e.optional = false := by
    decide +kernel
  obtain ⟨first, foremost⟩ : ∃ first, (Rule.candidates (statementText (significantTokens tokens))).head? = some first :=
    Option.isSome_iff_exists.mp (by decide +kernel)
  have consistent := validate_consistent tokens
  obtain ⟨missing, defect, shortfalls, incomplete, sequence⟩ := consistent.recognized invalid first foremost
  obtain rfl := incomplete.mpr (ranOut first foremost)
  rw [lines] at shortfalls
  refine ⟨invalid, fun none => ?_, ?_, missing, shortfalls, fun none => nomatch sequence.mpr none⟩
  · rw [consistent.message.mp none] at invalid
    cases invalid
  · by_contra matched
    rw [(consistent.matched.mp matched).1] at invalid
    cases invalid

end QueryService
