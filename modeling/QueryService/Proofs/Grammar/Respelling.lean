import QueryService.Proofs.Grammar.Alignment
import QueryService.Proofs.Grammar.Correspondence
import QueryService.Proofs.Text.Case

/-!
# Validation of tokens that are spelled or placed otherwise

Validation looks at the kinds and keywords of tokens and at their texts up to case. A map of tokens that
keeps those leads from the report on some tokens to one that differs at most in the lines it names
(`validate_map`).
-/

namespace QueryService

/-- A map of tokens that keeps all that validation looks at. -/
structure Respells (f : Token → Token) : Prop where
  kind : ∀ t, (f t).kind = t.kind
  keyword : ∀ t, (f t).keyword = t.keyword
  text : ∀ t, Bytes.toUpper (f t).value = Bytes.toUpper t.value

/-! ### What an element sees -/

theorem caseless_ofMark : Byte.Caseless Terminal.ofMark := by decide +kernel

theorem symbolTerminal?_congr {t u : Token} (kind : t.kind = u.kind)
    (text : Bytes.toUpper t.value = Bytes.toUpper u.value) : t.symbolTerminal? = u.symbolTerminal? := by
  have single (mark : UInt8) (plain : Byte.isLetter mark = false) : t.value = [mark] ↔ u.value = [mark] := by
    have only : ∀ c ∈ [mark], Byte.isLetter c = false := by simp [plain]
    rw [← Bytes.toUpper_eq_iff only, text, Bytes.toUpper_eq_iff only]
  unfold Token.symbolTerminal?
  simp only [single Byte.equals (by decide), single Byte.star (by decide), kind]
  split
  · rfl
  split
  · rfl
  split
  · rfl
  revert text
  rcases t.value with _ | ⟨a, _ | ⟨b, rest⟩⟩ <;> rcases u.value with _ | ⟨c, _ | ⟨d, later⟩⟩ <;> intro text
  case cons.nil.cons.nil =>
    have same : Byte.toUpper a = Byte.toUpper c := by simpa using text
    show Terminal.ofMark a = Terminal.ofMark c
    rw [← caseless_ofMark a, ← caseless_ofMark c, same]
  all_goals first | rfl | simp at text

namespace Respells

variable {f : Token → Token} (respells : Respells f)
include respells

theorem sameWord (t : Token) (word : Bytes) : Bytes.sameWord (f t).value word = Bytes.sameWord t.value word :=
  Bytes.sameWord_congr (Bytes.sameWord_iff.mpr (respells.text t)) word

theorem accepts (e : Element) (t : Token) : e.accepts (f t) = e.accepts t := by
  refine Element.accepts_congr ?_ (Bytes.sameWord_iff.mpr (respells.text t)) (respells.keyword t) e
  have symbol := symbolTerminal?_congr (respells.kind t) (respells.text t)
  simp only [Token.terminal?, respells.kind t, symbol]

theorem isSignificant (t : Token) : (f t).isSignificant = t.isSignificant := by
  rw [Token.isSignificant, Token.isSignificant, respells.kind]

end Respells

theorem statementText_map {f : Token → Token} (respells : Respells f) (tokens : List Token) :
    statementText (tokens.map f) = statementText tokens := by
  rw [statementText, statementText, List.map_map]
  exact congrArg _ (List.map_congr_left fun t _ => respells.text t)

/-! ### Alignment -/

def Indexed.map (f : Token → Token) (i : Indexed) : Indexed := ⟨i.index, f i.token⟩

theorem significantIndexed_map {f : Token → Token} (respells : Respells f) (tokens : List Token) :
    significantIndexed (tokens.map f) = (significantIndexed tokens).map (·.map f) := by
  have indexed (tokens : List Token) : significantIndexed tokens =
      (tokens.zipIdx.map fun pair => (⟨pair.2, pair.1⟩ : Indexed)).filter (·.token.isSignificant) := rfl
  have mapped : ((tokens.map f).zipIdx.map fun pair => (⟨pair.2, pair.1⟩ : Indexed)) =
      (tokens.zipIdx.map fun pair => (⟨pair.2, pair.1⟩ : Indexed)).map (·.map f) := by
    rw [List.zipIdx_map, List.map_map, List.map_map]
    rfl
  rw [indexed, mapped, List.filter_map, indexed]
  refine congrArg _ (List.filter_congr fun i _ => ?_)
  exact respells.isSignificant i.token

namespace Alignment

variable {f : Token → Token}

def map (f : Token → Token) (a : Alignment) : Alignment :=
  { misplaced := a.misplaced.map fun pair => (pair.1.map f, pair.2)
    surplus := a.surplus.map (·.map f)
    remaining := a.remaining }

theorem required_map (a : Alignment) : (a.map f).required = a.required := rfl

theorem fits_map (a : Alignment) : (a.map f).fits = a.fits := by
  rw [fits, fits, required_map, map, List.isEmpty_map, List.isEmpty_map]

theorem eq_map_of_corresponds {a b : Alignment} (corresponds : Corresponds (fun x y => x = y.map f) a b) :
    a = b.map f := by
  obtain ⟨misplaced, surplus, remaining⟩ := corresponds
  obtain ⟨_, _, _⟩ := a
  rw [map, mk.injEq, ← List.forall₂_eq_eq_eq, ← List.forall₂_eq_eq_eq, List.forall₂_map_right_iff,
    List.forall₂_map_right_iff]
  exact ⟨misplaced.imp fun _ _ same => Prod.ext same.1 same.2, surplus, remaining⟩

end Alignment

/-! ### Reports -/

namespace Report

/-- Two reports that differ at most in the lines they name. -/
structure Alike (r r' : Report) : Prop where
  valid : r.valid = r'.valid
  invalidTokens : r.invalidTokens = r'.invalidTokens
  expected : r.expected = r'.expected
  incomplete : r.shortfalls.any (·.defect == .incomplete) = r'.shortfalls.any (·.defect == .incomplete)

theorem Alike.refl (r : Report) : r.Alike r := ⟨rfl, rfl, rfl, rfl⟩

end Report

/-- Validation goes the same way for the mapped tokens, so its reports are related if those on an alignment
and on an unknown statement are. -/
theorem validate_map {f : Token → Token} (respells : Respells f) (related : Report → Report → Prop)
    (blank : related {} {})
    (unrecognized : ∀ first tokens,
      related (.unrecognized (f first) (tokens.map (Indexed.map f))) (.unrecognized first tokens))
    (aligned : ∀ rule tokens a, tokens ≠ [] →
      related (.ofAlignment rule (tokens.map (Indexed.map f)) (a.map f)) (.ofAlignment rule tokens a))
    (tokens : List Token) : related (validate (tokens.map f)) (validate tokens) := by
  have alike (x y : Indexed) (same : x = y.map f) : x.token.Alike y.token := by
    rw [same]
    exact ⟨fun e => respells.accepts e y.token, respells.text y.token⟩
  have rows : List.Forall₂ (fun x y => x = y.map f) (significantIndexed (tokens.map f)) (significantIndexed tokens) := by
    rw [significantIndexed_map respells, List.forall₂_map_left_iff, List.forall₂_same]
    exact fun _ _ => rfl
  have mapped {xs ys : List Indexed} (rows : List.Forall₂ (fun x y => x = y.map f) xs ys) : xs = ys.map (·.map f) := by
    rwa [← List.forall₂_eq_eq_eq, List.forall₂_map_right_iff]
  refine validate_of_rows alike rows related blank (fun x y xs ys goes => ?_) fun rule xs ys a b inhabited goes as => ?_
  · rw [mapped goes, (List.forall₂_cons.mp goes).1]
    exact unrecognized y.token (y :: ys)
  · rw [mapped goes] at inhabited ⊢
    rw [Alignment.eq_map_of_corresponds as]
    exact aligned rule ys b fun none => inhabited (by rw [none, List.map_nil])

/-- The report on tokens that are respelled in their places is the same. -/
theorem validate_respelled {f : Token → Token} (respells : Respells f) (lines : ∀ t, (f t).line = t.line)
    (tokens : List Token) : validate (tokens.map f) = validate tokens := by
  have sameLines (tokens : List Indexed) : linesOf (tokens.map (Indexed.map f)) = linesOf tokens := by
    rw [linesOf, linesOf, List.map_map]
    exact congrArg _ (List.map_congr_left fun i _ => lines i.token)
  refine validate_map respells (· = ·) rfl (fun first tokens => ?_) (fun rule tokens a _ => ?_) tokens
  · rw [Report.unrecognized, Report.unrecognized, sameLines, lines, List.map_map]
    rfl
  · unfold Report.ofAlignment
    rw [sameLines, a.fits_map, Alignment.required_map]
    simp only [Alignment.map, List.map_map, List.isEmpty_map]
    rfl

end QueryService
