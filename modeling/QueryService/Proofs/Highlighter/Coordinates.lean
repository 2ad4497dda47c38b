import QueryService.Proofs.Diagnostic.Placement
import QueryService.Proofs.Highlighter.Soundness

/-!
# Diagnostics in the document

A report is made for the code of a statement by itself, and its diagnostics are moved to where the
statement stands when they are asked for. What comes out is the analysis of the tokens in the document
(`diagnostics_in_document`).
-/

namespace QueryService

/-! ### Parts of a concatenation -/

theorem flatMap_eq_filter {α β : Type} {items : List α} {f g : α → List β} {q : α → Bool}
    (choice : ∀ x ∈ items, f x = if q x then g x else []) : items.flatMap f = (items.filter q).flatMap g := by
  induction items with
  | nil => rfl
  | cons x items ih =>
    have later := ih fun y member => choice y (List.mem_cons_of_mem _ member)
    rw [List.flatMap_cons, later, choice x List.mem_cons_self, List.filter_cons]
    split <;> rfl

theorem flatMap_filter_eq_iff {α β : Type} {items : List α} {g : α → List β} {q : α → Bool} :
    (items.filter q).flatMap g = items.flatMap g ↔ ∀ x ∈ items, g x ≠ [] → q x = true := by
  induction items with
  | nil => simp
  | cons x items ih =>
    have shorter : ((items.filter q).flatMap g).length ≤ (items.flatMap g).length := by
      rw [List.length_flatMap, List.length_flatMap]
      exact (List.filter_sublist.map _).sum_le_sum fun _ _ => Nat.zero_le _
    rw [List.filter_cons, List.flatMap_cons, List.forall_mem_cons, ← ih]
    split
    · rename_i kept
      rw [List.flatMap_cons, List.append_cancel_left_eq]
      exact ⟨fun same => ⟨fun _ => kept, same⟩, fun same => same.2⟩
    · rename_i dropped
      constructor
      · intro same
        have size := congrArg List.length same
        rw [List.length_append] at size
        have empty : g x = [] := List.length_eq_zero_iff.mp (by omega)
        rw [empty, List.nil_append] at same
        exact ⟨fun filled => absurd empty filled, same⟩
      · rintro ⟨silent, same⟩
        by_cases empty : g x = []
        · rw [empty, List.nil_append, same]
        · exact absurd (silent empty) dropped

namespace Highlighter

variable {h : Highlighter} {texts : List Bytes} {text : Bytes} {s : Statement}

/-! ### Looking up -/

/-- The diagnostics of a statement whose report is `found`, at their places in the document. -/
def placed (s : Statement) (found : Option Report) : List Diagnostic :=
  (found.map fun report => (analyze (QueryService.tokenize s.code) report s.first.line).map fun d =>
    if d.position.line = s.first.line then
      { d with position := ⟨d.position.line, d.position.column + s.first.column⟩ }
    else d).getD []

theorem diagnosticsOf_spec (faithful : h.tokenCache.Faithful QueryService.tokenize) (s : Statement) :
    (h.diagnosticsOf s).1 = placed s ((h.resultCache.find? s.code).map (·.value)) ∧
      (h.diagnosticsOf s).2.tokenCache.Faithful QueryService.tokenize ∧
      ∀ key, (h.diagnosticsOf s).2.resultCache.find? key = h.resultCache.find? key := by
  have kept (key : Bytes) := Cache.find?_get h.resultCache key s.code
  rw [← Cache.get_fst]
  unfold diagnosticsOf result
  dsimp only
  cases found : (h.resultCache.get s.code).1 with
  | none => exact ⟨rfl, faithful, kept⟩
  | some report =>
    dsimp only
    have spared := spares_tokenize { h with resultCache := (h.resultCache.get s.code).2 } s.code
    have tokens := tokenize_faithful (h := { h with resultCache := (h.resultCache.get s.code).2 }) faithful s.code
    refine ⟨?_, tokens.2, fun key => ?_⟩
    · rw [tokens.1]
      rfl
    · rw [spared.results]
      exact kept key

theorem collected (step : List Diagnostic × Highlighter → Entry → List Diagnostic × Highlighter)
    (collects : ∀ s e, step s e =
      (s.1 ++ (s.2.diagnosticsOf e.statement).1, (s.2.diagnosticsOf e.statement).2))
    {s : List Diagnostic × Highlighter} (faithful : s.2.tokenCache.Faithful QueryService.tokenize)
    (same : ∀ key, s.2.resultCache.find? key = h.resultCache.find? key) (entries : List Entry) :
    (entries.foldl step s).1 =
      s.1 ++ entries.flatMap fun e => placed e.statement ((h.resultCache.find? e.statement.code).map (·.value)) := by
  induction entries generalizing s with
  | nil => exact (List.append_nil s.1).symm
  | cons e entries ih =>
    obtain ⟨found, faithful', kept⟩ := diagnosticsOf_spec faithful e.statement
    rw [List.foldl_cons, List.flatMap_cons, ← List.append_assoc, ← same, ← found, collects]
    exact ih faithful' fun key => (kept key).trans (same key)

theorem diagnostics_spec (faithful : h.tokenCache.Faithful QueryService.tokenize) :
    h.diagnostics.1 = h.statements.statements.flatMap fun s =>
      placed s ((h.resultCache.find? s.code).map (·.value)) := by
  rw [Listing.statements, List.flatMap_map]
  exact collected _ (fun _ _ => rfl) (s := ([], h)) faithful (fun _ => rfl) h.statements.entries

/-! ### Reports that are right -/

theorem placed_reportOn (member : s ∈ Statement.parse text) :
    placed s (some (reportOn s.code)) = analyze s.tokens (validate s.tokens) 0 := by
  rw [(Statement.parse_tokens member).1, analyze_within]
  rfl

theorem Sound.placed_found (sound : h.Sound) (member : s ∈ h.statements.statements) :
    placed s ((h.resultCache.find? s.code).map (·.value)) =
      if h.resultCache.contains s.code then analyze s.tokens (validate s.tokens) 0 else [] := by
  unfold Cache.contains
  cases held : h.resultCache.find? s.code with
  | none => rfl
  | some e =>
    rw [Option.map_some, sound.reports.find? held]
    -- Where a statement stands does not depend on its validity.
    exact placed_reportOn (s := s.unvalidated) (sound.mem_parse member)

theorem Sound.diagnosticsOf (sound : h.Sound) (member : s ∈ h.statements.statements) :
    (h.diagnosticsOf s).1 =
      if h.resultCache.contains s.code then analyze s.tokens (validate s.tokens) 0 else [] := by
  rw [(diagnosticsOf_spec sound.tokens s).1, sound.placed_found member]

theorem Sound.diagnostics (sound : h.Sound) :
    h.diagnostics.1 = h.statements.statements.flatMap fun s =>
      if h.resultCache.contains s.code then analyze s.tokens (validate s.tokens) 0 else [] := by
  rw [diagnostics_spec sound.tokens]
  exact List.flatMap_congr fun s member => sound.placed_found member

/-- In every highlighter that a fresh one reaches, the diagnostics of a statement whose report is cached
are those of its tokens in the document, and the diagnostics of all statements follow in their order. -/
theorem diagnostics_in_document {options : HighlighterOptions} {level : LogLevel}
    (reached : Reaches (new options level) texts h) :
    (∀ s ∈ h.statements.statements, (h.diagnosticsOf s).1 =
        if h.resultCache.contains s.code then analyze s.tokens (validate s.tokens) 0 else []) ∧
      h.diagnostics.1 = h.statements.statements.flatMap (fun s => (h.diagnosticsOf s).1) ∧
      h.statements.statements.Pairwise fun s later => s.stop ≤ later.start := by
  obtain ⟨sound, _⟩ := reached.sound
  refine ⟨fun s member => sound.diagnosticsOf member, ?_, sound.ordered⟩
  rw [sound.diagnostics]
  exact List.flatMap_congr fun s member => (sound.diagnosticsOf member).symm

/-- A statement over two lines that was refused, and one that was added later. -/
def indented : List Session.Command :=
  [.update (ascii "a;\n  bogus\n @;"), .validateAll, .update (ascii "a;\n  bogus\n @; x;")]

theorem indented_diagnostics_in_document :
    let h := (Session.visit ({}, new {} .off) indented).2
    (∃ texts, Reaches (new {} .off) texts h) ∧
      (∃ s ∈ h.statements.statements, s.first = ⟨1, 2⟩ ∧ h.resultCache.contains s.code = true ∧
        (h.diagnosticsOf s).1 = analyze s.tokens (validate s.tokens) 0 ∧
        (h.diagnosticsOf s).1.map (·.position) = [⟨2, 1⟩, ⟨1, 2⟩, ⟨1, 2⟩, ⟨2, 1⟩, ⟨2, 2⟩]) ∧
      (∃ s ∈ h.statements.statements, h.resultCache.contains s.code = false ∧ (h.diagnosticsOf s).1 = []) ∧
      h.diagnostics.1 = h.statements.statements.flatMap (fun s => (h.diagnosticsOf s).1) := by
  intro h
  obtain ⟨texts, reached⟩ := Session.visit_reaches ({}, new {} .off) indented
  obtain ⟨each, all, _⟩ := diagnostics_in_document reached
  have refused : ∃ s ∈ h.statements.statements, s.first = ⟨1, 2⟩ ∧ h.resultCache.contains s.code = true ∧
      (h.diagnosticsOf s).1.map (·.position) = [⟨2, 1⟩, ⟨1, 2⟩, ⟨1, 2⟩, ⟨2, 1⟩, ⟨2, 2⟩] := by
    decide +kernel
  have added : ∃ s ∈ h.statements.statements, h.resultCache.contains s.code = false := by decide +kernel
  obtain ⟨s, member, first, held, places⟩ := refused
  obtain ⟨s', listed, missing⟩ := added
  refine ⟨⟨texts, reached⟩, ⟨s, member, first, held, ?_, places⟩, ⟨s', listed, missing, ?_⟩, all⟩
  · rw [each s member, if_pos held]
  · rw [each s' listed, if_neg (Bool.eq_false_iff.mp missing)]

end Highlighter
end QueryService
