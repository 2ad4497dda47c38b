import QueryService.Proofs.Diagnostic.Placement

/-!
# Diagnostics of a report

A report is mirrored in its diagnostics, whoever made it: there are none if it is valid, and otherwise one
for each token that it names, next to those of the shape and of the end of the statement
(`diagnostics_mirror_report`).
-/

namespace QueryService

variable {tokens : List Token} {report : Report} {firstLine : Nat}

/-- The diagnostic points at the token of this index, so many lines down. -/
def Diagnostic.PointsAt (tokens : List Token) (firstLine index : Nat) (d : Diagnostic) : Prop :=
  ∃ t, tokens[index]? = some t ∧ d.source = t.value ∧ d.position = ⟨t.line + firstLine, t.column⟩ ∧
    d.length = max 1 t.value.length

theorem Fault.code_eq_unexpectedToken_iff (fault : Fault) :
    fault.code = Fault.unexpectedToken.code ↔ fault = .unexpectedToken := by
  cases fault <;> decide

/-! ### Diagnostics of other faults -/

/-- None of the diagnostics is about an unexpected token. -/
def Others (diagnostics : List Diagnostic) : Prop := ∀ d ∈ diagnostics, d.fault ≠ .unexpectedToken

namespace Others

variable {diagnostics more : List Diagnostic}

theorem nil : Others [] := nofun

theorem single {d : Diagnostic} (other : d.fault ≠ .unexpectedToken) : Others [d] := by
  simpa [Others] using other

theorem append (first : Others diagnostics) (second : Others more) : Others (diagnostics ++ more) := by
  intro d member
  exact (List.mem_append.mp member).elim (first d) (second d)

theorem ite {p : Prop} [Decidable p] (first : Others diagnostics) (second : Others more) :
    Others (if p then diagnostics else more) := by
  split
  · exact first
  · exact second

theorem filter_eq_nil (others : Others diagnostics) : diagnostics.filter (·.fault = .unexpectedToken) = [] := by
  rw [List.filter_eq_nil_iff]
  intro d member
  simpa using others d member

end Others

namespace Shape

variable (first : Token) (rest : List Token)

theorem others_select : Others (select first rest) := by
  refine Others.append (Others.append ?_ (Others.ite (Others.single nofun) Others.nil))
    (Others.ite (Others.single nofun) Others.nil)
  intro d member
  obtain ⟨t, _, rfl⟩ := List.mem_map.mp member
  exact nofun

theorem others_create : Others (create first rest) := by
  cases rest with
  | nil => exact Others.single nofun
  | cons object more => exact Others.ite Others.nil (Others.single nofun)

theorem others_diagnose : Others (diagnose first rest) := by
  refine Others.ite (others_select first rest) (Others.ite ?insert (Others.ite ?update (Others.ite ?delete
    (Others.ite ?add (Others.ite (others_create first rest) ?command)))))
  case insert => exact Others.ite Others.nil (Others.single nofun)
  case update =>
    refine Others.ite Others.nil (Others.ite ?_ ?_)
    · exact Others.ite Others.nil (Others.single nofun)
    · exact Others.ite Others.nil (Others.single nofun)
  case delete => exact Others.ite Others.nil (Others.single nofun)
  case add => exact Others.ite Others.nil (Others.single nofun)
  case command => exact Others.ite Others.nil (Others.single nofun)

end Shape

namespace Analysis

theorem others_incompleteStatement (last : Token) : Others (incompleteStatement tokens last report) :=
  Others.ite (Others.single nofun) Others.nil

theorem fault_unexpectedTokens {d : Diagnostic} (member : d ∈ unexpectedTokens tokens report) :
    d.fault = .unexpectedToken := by
  obtain ⟨index, _, found⟩ := List.mem_filterMap.mp member
  obtain ⟨t, _, rfl⟩ := Option.map_eq_some_iff.mp found
  rfl

theorem ofReport_eq_nil_iff : ofReport tokens report = [] ↔ report.valid = true := by
  unfold ofReport
  split <;> rename_i valid
  · exact iff_of_true rfl valid
  · refine iff_of_false ?_ valid
    split
    · exact List.cons_ne_nil _ _
    · dsimp only
      split <;> rename_i found
      · exact List.cons_ne_nil _ _
      · rwa [List.isEmpty_iff] at found

/-- A refused statement has just the unexpected tokens that the report names. -/
theorem ofReport_unexpected (refused : report.valid = false) (some : significantTokens tokens ≠ []) :
    (ofReport tokens report).filter (·.fault = .unexpectedToken) = unexpectedTokens tokens report := by
  rw [ofReport, refused, if_neg Bool.false_ne_true]
  split
  · contradiction
  · rename_i first rest _
    have kept : (unexpectedTokens tokens report).filter (·.fault = .unexpectedToken) = unexpectedTokens tokens report :=
      List.filter_eq_self.mpr fun d member => decide_eq_true (fault_unexpectedTokens member)
    dsimp only
    split <;> rename_i found
    · have fallback : Others [syntaxError first] := Others.single nofun
      rw [List.isEmpty_iff, List.append_eq_nil_iff] at found
      rw [found.2, fallback.filter_eq_nil]
    · rw [List.filter_append, kept, List.filter_append, (Shape.others_diagnose first rest).filter_eq_nil,
        (others_incompleteStatement _).filter_eq_nil]
      rfl

/-- The unexpected tokens are those whose indices the report names and the list has, in the order of the report. -/
theorem unexpectedTokens_pointAt (tokens : List Token) (report : Report) (firstLine : Nat) :
    List.Forall₂ (Diagnostic.PointsAt tokens firstLine) (report.invalidTokens.filter (· < tokens.length))
      ((unexpectedTokens tokens report).map (.shiftLines firstLine)) := by
  unfold unexpectedTokens
  induction report.invalidTokens with
  | nil => exact List.Forall₂.nil
  | cons index later ih =>
    rw [List.filter_cons, List.filterMap_cons]
    split <;> rename_i inside
    · rw [List.getElem?_eq_getElem (of_decide_eq_true inside)]
      refine List.Forall₂.cons ⟨_, List.getElem?_eq_getElem (of_decide_eq_true inside), rfl, rfl, ?_⟩ ih
      exact Nat.max_comm _ _
    · rw [List.getElem?_eq_none (Nat.le_of_not_lt (by simpa using inside))]
      exact ih

end Analysis

theorem analyze_shift (tokens : List Token) (report : Report) (firstLine : Nat) :
    analyze tokens report firstLine = (analyze tokens report 0).map (.shiftLines firstLine) := by
  rw [analyze, analyze, analyzeTokens, analyzeTokens, analyzeReport, analyzeReport, List.map_append, List.map_map,
    List.map_map]
  rfl

/-- Tokens that stand some lines down have the diagnostics of the others at that offset. -/
theorem analyze_moved (offset : Nat) (told : report.valid = true ∨ significantTokens tokens ≠ []) :
    analyze (tokens.map (·.within offset ⟨firstLine, 0⟩)) report 0 = analyze tokens report firstLine := by
  have agrees := agrees_within offset ⟨firstLine, 0⟩
  have tokenwise := literalDiagnostics_map agrees tokens
  have reported := Analysis.ofReport_map agrees (Report.Alike.refl report) fun blank =>
    Or.inl (told.resolve_right (absurd blank))
  have shift : Diagnostic.within ⟨firstLine, 0⟩ = Diagnostic.shiftLines firstLine := by
    funext d
    unfold Diagnostic.within Diagnostic.shiftLines Position.within
    split
    · rename_i first
      rw [first, Nat.zero_add, Nat.zero_add]
    · rw [Nat.add_comm]
  rw [List.map_id, shift] at tokenwise reported
  have unmoved : Diagnostic.shiftLines 0 = id := rfl
  rw [analyze, analyze, analyzeTokens, analyzeTokens, analyzeReport, analyzeReport, tokenwise, reported, unmoved,
    List.map_id, List.map_id]

/-- The diagnostics of a report mirror it. There are none just if it is valid. If it is not, and there is a
statement, then the codes of unexpected tokens stand for the indices that the report names and the list has, each
once and in ascending order. An offset is added to the lines and changes nothing else. -/
theorem diagnostics_mirror_report (tokens : List Token) (report : Report) (firstLine : Nat) :
    (analyzeReport tokens report firstLine = [] ↔ report.valid = true) ∧
      (report.valid = false → significantTokens tokens ≠ [] → report.invalidTokens.Pairwise (· < ·) →
        ∃ indices : List Nat, indices.Pairwise (· < ·) ∧
          (∀ index, index ∈ indices ↔ index ∈ report.invalidTokens ∧ index < tokens.length) ∧
          List.Forall₂ (Diagnostic.PointsAt tokens firstLine) indices
            ((analyzeReport tokens report firstLine).filter (·.fault.code = ascii "Q3001"))) ∧
      analyze tokens report firstLine = (analyze tokens report 0).map fun d =>
        { d with position := ⟨d.position.line + firstLine, d.position.column⟩ } := by
  refine ⟨?_, fun refused statement ascending => ?_, analyze_shift tokens report firstLine⟩
  · rw [analyzeReport, List.map_eq_nil_iff, Analysis.ofReport_eq_nil_iff]
  · refine ⟨report.invalidTokens.filter (· < tokens.length), ascending.filter _, by simp, ?_⟩
    have coded : (fun d : Diagnostic => decide (d.fault.code = ascii "Q3001")) =
        fun d => decide (d.fault = .unexpectedToken) :=
      funext fun d => decide_eq_decide.mpr (Fault.code_eq_unexpectedToken_iff d.fault)
    rw [coded, analyzeReport, List.filter_map]
    show List.Forall₂ _ _ (((Analysis.ofReport tokens report).filter (·.fault = .unexpectedToken)).map _)
    rw [Analysis.ofReport_unexpected refused statement]
    exact Analysis.unexpectedTokens_pointAt tokens report firstLine

/-- A report made by hand, with an index that names no token. -/
theorem stray_index_unreported :
    let tokens := tokenize (ascii "SELECT x")
    let report : Report := { valid := false, invalidTokens := [2, 9] }
    report.valid = false ∧ significantTokens tokens ≠ [] ∧ report.invalidTokens.Pairwise (· < ·) ∧
      ∃ indices : List Nat, indices.Pairwise (· < ·) ∧
        (∀ index, index ∈ indices ↔ index ∈ [2, 9] ∧ index < tokens.length) ∧
        List.Forall₂ (Diagnostic.PointsAt tokens 7) indices
          ((analyzeReport tokens report 7).filter (·.fault.code = ascii "Q3001")) := by
  intro tokens report
  have statement : significantTokens tokens ≠ [] := by decide +kernel
  have ascending : report.invalidTokens.Pairwise (· < ·) := by decide
  exact ⟨rfl, statement, ascending, (diagnostics_mirror_report tokens report 7).2.1 rfl statement ascending⟩

end QueryService
