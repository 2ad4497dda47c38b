import QueryService.Proofs.Grammar.Respelling
import QueryService.Proofs.Grammar.Significant

/-!
# Validation wherever a statement stands

Validation looks at the kinds and texts of tokens. Moving a statement to another place changes nothing
in its report but the lines it names (`validate_within`).
-/

namespace QueryService

variable (offset : Nat) (origin : Position)

def Indexed.within (i : Indexed) : Indexed := ⟨i.index, i.token.within offset origin⟩

theorem respells_within : Respells (·.within offset origin) := ⟨fun _ => rfl, fun _ => rfl, fun _ => rfl⟩

namespace Alignment

def within (a : Alignment) : Alignment :=
  { misplaced := a.misplaced.map fun pair => (pair.1.within offset origin, pair.2)
    surplus := a.surplus.map (·.within offset origin)
    remaining := a.remaining }

theorem within_eq_map (a : Alignment) : a.within offset origin = a.map (·.within offset origin) := rfl

theorem fits_within (a : Alignment) : (a.within offset origin).fits = a.fits := by
  rw [within_eq_map, fits_map]

end Alignment

namespace Report

theorem any_linesOf {tokens : List Indexed} (inhabited : tokens ≠ []) (missing : List Bytes) (defect : Defect) :
    ((linesOf tokens).map (⟨·, missing, defect⟩ : Nat → Shortfall)).any (·.defect == .incomplete) =
      (defect == .incomplete) := by
  have lines := linesOf_ne_nil inhabited
  cases found : linesOf tokens with
  | nil => contradiction
  | cons line later =>
    rw [List.any_map]
    show (line :: later).any (fun _ => defect == .incomplete) = _
    cases defect == .incomplete <;> simp

theorem required_within (a : Alignment) : (a.within offset origin).required = a.required := rfl

theorem ofAlignment_within (rule : Rule) {tokens : List Indexed} (inhabited : tokens ≠ []) (a : Alignment) :
    (ofAlignment rule (tokens.map (·.within offset origin)) (a.within offset origin)).Alike
      (ofAlignment rule tokens a) := by
  have moved : tokens.map (·.within offset origin) ≠ [] := by rwa [Ne, List.map_eq_nil_iff]
  unfold ofAlignment
  rw [a.fits_within offset origin, required_within]
  dsimp only
  split
  · exact ⟨rfl, rfl, rfl, rfl⟩
  · refine ⟨rfl, ?_, rfl, ?_⟩
    · simp only [Alignment.within, List.map_map]
      rfl
    · rw [any_linesOf moved, any_linesOf inhabited]
      simp only [Alignment.within, List.isEmpty_map]

theorem unrecognized_within (t : Token) (tokens : List Indexed) :
    (unrecognized (t.within offset origin) (tokens.map (·.within offset origin))).Alike (unrecognized t tokens) := by
  refine ⟨rfl, ?_, rfl, rfl⟩
  rw [unrecognized, unrecognized, List.map_map]
  rfl

end Report

/-- Validation does not depend on where a statement stands. -/
theorem validate_within (tokens : List Token) :
    (validate (tokens.map (·.within offset origin))).Alike (validate tokens) :=
  validate_map (respells_within offset origin) Report.Alike (.refl {})
    (fun first tokens => Report.unrecognized_within offset origin first tokens)
    (fun rule _ a inhabited => Report.ofAlignment_within offset origin rule inhabited a) tokens

end QueryService
