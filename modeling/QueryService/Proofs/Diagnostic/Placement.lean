import QueryService.Proofs.Diagnostic.Respelling
import QueryService.Proofs.Grammar.Acceptance
import QueryService.Proofs.Grammar.Placement

/-!
# Diagnostics wherever a statement stands

A statement can be analyzed on its own and its diagnostics moved to its place afterwards: the outcome is
the analysis of its tokens in the document (`analyze_within`).
-/

namespace QueryService

variable (offset : Nat) (origin : Position)

/-- A diagnostic of a passage, in the text where the passage starts at `origin`. -/
def Diagnostic.within (d : Diagnostic) : Diagnostic := { d with position := d.position.within origin }

namespace Diagnostic

theorem on_within (t : Token) (fault : Fault) (message suggestion : Bytes) :
    on (t.within offset origin) fault message suggestion = (on t fault message suggestion).within origin := rfl

theorem after_within (t : Token) (fault : Fault) (message source suggestion : Bytes) :
    after (t.within offset origin) fault message source suggestion =
      (after t fault message source suggestion).within origin := by
  rw [after, after, within]
  congr 1
  show Position.mk (t.position.within origin).line ((t.position.within origin).column + t.value.length) =
    Position.within ⟨t.position.line, t.position.column + t.value.length⟩ origin
  unfold Position.within
  dsimp only
  split
  · rw [Nat.add_assoc]
  · rfl

end Diagnostic

theorem agrees_within : Agrees (·.within offset origin) id (Diagnostic.within origin) where
  toRespells := respells_within offset origin
  on t fault message suggestion := Diagnostic.on_within offset origin t fault (message t.value) suggestion
  opening _ _ _ _ := rfl
  after := Diagnostic.after_within offset origin

theorem validate_blank {tokens : List Token} (blank : significantTokens tokens = []) :
    (validate tokens).valid = true := by
  rw [validate_eq_of_blank blank]

theorem within_eq_shiftLines (d : Diagnostic) :
    (if (d.shiftLines origin.line).position.line = origin.line then
      { d.shiftLines origin.line with
        position := ⟨(d.shiftLines origin.line).position.line,
          (d.shiftLines origin.line).position.column + origin.column⟩ }
    else d.shiftLines origin.line) = d.within origin := by
  unfold Diagnostic.shiftLines Diagnostic.within Position.within
  dsimp only
  by_cases first : d.position.line = 0
  · rw [if_pos (by omega), if_pos first, first, Nat.zero_add, Nat.add_comm]
  · rw [if_neg (by omega), if_neg first, Nat.add_comm]

/-- A statement analyzed on its own, and its diagnostics moved to its place. -/
theorem analyze_within (tokens : List Token) :
    analyze (tokens.map (·.within offset origin)) (validate (tokens.map (·.within offset origin))) 0 =
      (analyze tokens (validate tokens) origin.line).map fun d =>
        if d.position.line = origin.line then
          { d with position := ⟨d.position.line, d.position.column + origin.column⟩ }
        else d := by
  have agrees := agrees_within offset origin
  have tokenwise := literalDiagnostics_map agrees tokens
  have report := Analysis.ofReport_map agrees (validate_within offset origin tokens) fun blank =>
    Or.inl (validate_blank blank)
  rw [List.map_id] at tokenwise report
  rw [analyze, analyze, analyzeTokens, analyzeTokens, analyzeReport, analyzeReport, tokenwise, report,
    List.map_append, List.map_map, List.map_map, List.map_map, List.map_map]
  congr 1 <;> exact List.map_congr_left fun d _ => (within_eq_shiftLines origin d).symm

end QueryService
