import Mathlib.Data.List.Forall2
import QueryService.Grammar.Validation

/-!
# Rows that correspond

Two rows correspond if the elements of a pattern cannot tell their tokens apart, one by one. Alignment goes
the same way for both of them, and so does validation: whatever relates the reports on an alignment and on an
unknown statement relates the outcomes (`validate_of_rows`).
-/

namespace QueryService

/-- Two tokens that no element tells apart and that begin the same statements. -/
structure Token.Alike (t u : Token) : Prop where
  accepts : ∀ e : Element, e.accepts t = e.accepts u
  text : Bytes.toUpper t.value = Bytes.toUpper u.value

variable {R : Indexed → Indexed → Prop} {xs ys : List Indexed}

namespace Alignment

/-- Two alignments with the same elements, whose tokens are related one by one. -/
structure Corresponds (R : Indexed → Indexed → Prop) (a b : Alignment) : Prop where
  misplaced : List.Forall₂ (fun x y => R x.1 y.1 ∧ x.2 = y.2) a.misplaced b.misplaced
  surplus : List.Forall₂ R a.surplus b.surplus
  remaining : a.remaining = b.remaining

theorem Corresponds.fits {a b : Alignment} (corresponds : Corresponds R a b) : a.fits = b.fits := by
  have empty {α β : Type} {S : α → β → Prop} {l : List α} {l' : List β} (rows : List.Forall₂ S l l') :
      l.isEmpty = l'.isEmpty := by
    cases rows <;> rfl
  rw [Alignment.fits, Alignment.fits, empty corresponds.misplaced, empty corresponds.surplus, required, required,
    corresponds.remaining]

/-- A pattern goes with two rows in the same way if its elements cannot tell them apart. -/
theorem of_corresponds (alike : ∀ x y, R x y → x.token.Alike y.token) (pattern : List Element)
    (rows : List.Forall₂ R xs ys) : Corresponds R (of pattern xs) (of pattern ys) := by
  have next {xs ys : List Indexed} (rows : List.Forall₂ R xs ys) (e : Element) :
      xs.head?.any (fun next => e.accepts next.token) = ys.head?.any fun next => e.accepts next.token := by
    cases rows with
    | nil => rfl
    | cons first rest => exact (alike _ _ first).accepts e
  fun_induction of pattern xs generalizing ys with
  | case1 pattern =>
    cases rows
    rw [of]
    exact ⟨.nil, .nil, rfl⟩
  | case2 xs inhabited =>
    cases rows with
    | nil => exact absurd rfl inhabited
    | cons first rest =>
      rw [of]
      · exact ⟨.nil, .cons first rest, rfl⟩
      · exact List.cons_ne_nil _ _
  | case3 e pattern x xs accepted more ih =>
    obtain _ | ⟨first, rest⟩ := rows
    rw [(alike _ _ first).accepts] at accepted
    rw [next rest] at more
    rw [of, if_pos accepted, if_pos more]
    exact ih rest
  | case4 e pattern x xs accepted last ih =>
    obtain _ | ⟨first, rest⟩ := rows
    rw [(alike _ _ first).accepts] at accepted
    rw [next rest] at last
    rw [of, if_pos accepted, if_neg last]
    exact ih rest
  | case5 e pattern x xs refused optional ih =>
    obtain _ | ⟨first, rest⟩ := rows
    rw [(alike _ _ first).accepts] at refused
    rw [of, if_neg refused, if_pos optional]
    exact ih (.cons first rest)
  | case6 e pattern x xs refused needed later =>
    rename_i ih
    obtain _ | ⟨first, rest⟩ := rows
    rw [(alike _ _ first).accepts] at refused
    rw [of, if_neg refused, if_neg needed]
    obtain ⟨misplaced, surplus, remaining⟩ := ih rest
    exact ⟨.cons ⟨first, rfl⟩ misplaced, surplus, remaining⟩

end Alignment

theorem statementText_of_rows (alike : ∀ x y, R x y → x.token.Alike y.token) (rows : List.Forall₂ R xs ys) :
    statementText (xs.map (·.token)) = statementText (ys.map (·.token)) := by
  refine congrArg (Bytes.joined [Byte.space]) ?_
  rw [List.map_map, List.map_map, ← List.forall₂_eq_eq_eq, List.forall₂_map_left_iff, List.forall₂_map_right_iff]
  exact rows.imp fun x y related => (alike x y related).text

/-- Validation goes the same way for rows that correspond, so its outcomes are related if the reports on
alignments that correspond and on unknown statements are. -/
theorem validate_of_rows {tokens others : List Token} (alike : ∀ x y, R x y → x.token.Alike y.token)
    (rows : List.Forall₂ R (significantIndexed tokens) (significantIndexed others))
    (related : Report → Report → Prop) (blank : related {} {})
    (unrecognized : ∀ x y xs ys, List.Forall₂ R (x :: xs) (y :: ys) →
      related (.unrecognized x.token (x :: xs)) (.unrecognized y.token (y :: ys)))
    (aligned : ∀ rule xs ys a b, xs ≠ [] → List.Forall₂ R xs ys → Alignment.Corresponds R a b →
      related (.ofAlignment rule xs a) (.ofAlignment rule ys b)) :
    related (validate tokens) (validate others) := by
  have words := statementText_of_rows alike rows
  have goes (rule : Rule) := Alignment.of_corresponds alike rule.pattern rows
  have fits (rule : Rule) := (goes rule).fits
  unfold validate
  dsimp only
  rw [words]
  simp only [validateAgainst, fits]
  generalize significantIndexed tokens = xs at *
  generalize significantIndexed others = ys at *
  cases rows with
  | nil => exact blank
  | cons first rest =>
    dsimp only
    split
    · exact unrecognized _ _ _ _ (.cons first rest)
    · exact aligned _ _ _ _ _ (List.cons_ne_nil _ _) (.cons first rest) (goes _)

end QueryService
