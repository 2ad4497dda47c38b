import QueryService.Grammar.Validation

/-!
# Alignment of a longer statement

Alignment of a longer statement goes on where that of its beginning stopped, or one element before, if
that one may be repeated (`of_append`). What has been refused by then stays refused.
-/

namespace QueryService

namespace Alignment

variable {pattern rest : List Element} {tokens later : List Indexed}

/-- The tokens that do not go with the pattern. -/
def refused (a : Alignment) : List Indexed := a.misplaced.map (·.1) ++ a.surplus

theorem refused_of_fits {a : Alignment} (fits : a.fits = true) : a.refused = [] := by
  simp only [Alignment.fits, Bool.and_eq_true, List.isEmpty_iff] at fits
  obtain ⟨⟨misplaced, surplus⟩, _⟩ := fits
  rw [refused, misplaced, surplus]
  rfl

theorem remaining_suffix (pattern : List Element) (tokens : List Indexed) : (of pattern tokens).remaining <:+ pattern := by
  fun_induction of pattern tokens with
  | case1 pattern => exact List.suffix_rfl
  | case2 tokens inhabited => exact List.nil_suffix
  | case3 e pattern t tokens accepted more ih => exact ih
  | case4 e pattern t tokens accepted last ih => exact ih.trans (List.suffix_cons e pattern)
  | case5 e pattern t tokens rejected optional ih => exact ih.trans (List.suffix_cons e pattern)
  | case6 e pattern t tokens rejected needed later ih => exact ih.trans (List.suffix_cons e pattern)

/-- The elements that `later` meets, when those of `pattern` have been passed up to `remaining`. -/
inductive Resumes (pattern remaining : List Element) (later : List Indexed) : List Element → Prop
  | onward : Resumes pattern remaining later remaining
  | held {e : Element} (within : e :: remaining <:+ pattern) (repeatable : e.repeatable = true)
      (accepted : later.head?.any (fun next => e.accepts next.token) = true) :
      Resumes pattern remaining later (e :: remaining)

theorem Resumes.cons {remaining : List Element} (resumes : Resumes pattern remaining later rest) (e : Element) :
    Resumes (e :: pattern) remaining later rest := by
  cases resumes with
  | onward => exact .onward
  | held within repeatable accepted => exact .held (within.trans (List.suffix_cons e pattern)) repeatable accepted

/-- The alignment of a beginning, and that of what follows with the elements left for it. -/
def followed (first second : Alignment) : Alignment :=
  { misplaced := first.misplaced ++ second.misplaced
    surplus := first.surplus ++ second.surplus
    remaining := second.remaining }

theorem refused_followed {first second : Alignment} (unrefused : second.refused = []) :
    (first.followed second).refused = first.refused := by
  obtain ⟨misplaced, surplus⟩ := List.append_eq_nil_iff.mp unrefused
  simp only [refused, followed, List.map_append, misplaced, surplus, List.append_nil]

theorem refused_of_followed {first second : Alignment} (none : (first.followed second).refused = []) :
    first.refused = [] := by
  simp only [refused, followed, List.map_append, List.append_eq_nil_iff] at none ⊢
  exact ⟨none.1.1, none.2.1⟩

theorem followed_of_nil (pattern : List Element) (second : Alignment) :
    ({ remaining := pattern } : Alignment).followed second = second := rfl

theorem of_nil (tokens : List Indexed) : of [] tokens = { surplus := tokens } := by
  cases tokens <;> rw [of]
  exact List.cons_ne_nil _ _

theorem of_append (pattern : List Element) (tokens later : List Indexed) :
    ∃ rest, Resumes pattern (of pattern tokens).remaining later rest ∧
      of pattern (tokens ++ later) = (of pattern tokens).followed (of rest later) := by
  fun_induction of pattern tokens with
  | case1 pattern => exact ⟨pattern, .onward, (followed_of_nil pattern _).symm⟩
  | case2 tokens inhabited =>
    refine ⟨[], .onward, ?_⟩
    rw [of_nil, of_nil]
    rfl
  | case3 e pattern t tokens accepted more ih =>
    obtain ⟨repeatable, next⟩ := Bool.and_eq_true_iff.mp more
    obtain ⟨rest, resumes, whole⟩ := ih
    have again : (tokens ++ later).head?.any (fun next => e.accepts next.token) = true := by
      cases tokens with
      | nil => cases next
      | cons u tokens => exact next
    refine ⟨rest, resumes, ?_⟩
    rw [List.cons_append, of, if_pos accepted, if_pos (Bool.and_eq_true_iff.mpr ⟨repeatable, again⟩), whole]
  | case4 e pattern t tokens accepted last ih =>
    cases tokens with
    | nil =>
      -- The element keeps its place, for it has not been known yet what comes.
      by_cases more : (e.repeatable && later.head?.any fun next => e.accepts next.token) = true
      · obtain ⟨repeatable, next⟩ := Bool.and_eq_true_iff.mp more
        rw [of]
        refine ⟨e :: pattern, .held List.suffix_rfl repeatable next, ?_⟩
        rw [List.singleton_append, of, if_pos accepted, if_pos more, followed_of_nil]
      · rw [of]
        refine ⟨pattern, .onward, ?_⟩
        rw [List.singleton_append, of, if_pos accepted, if_neg more, followed_of_nil]
    | cons u tokens =>
      obtain ⟨rest, resumes, whole⟩ := ih
      have alone : ¬ (e.repeatable && (u :: tokens ++ later).head?.any (fun next => e.accepts next.token)) = true :=
        last
      refine ⟨rest, resumes.cons e, ?_⟩
      rw [List.cons_append, of, if_pos accepted, if_neg alone, whole]
  | case5 e pattern t tokens rejected optional ih =>
    obtain ⟨rest, resumes, whole⟩ := ih
    refine ⟨rest, resumes.cons e, ?_⟩
    rw [List.cons_append, of, if_neg rejected, if_pos optional, ← whole, List.cons_append]
  | case6 e pattern t tokens rejected needed behind ih =>
    obtain ⟨rest, resumes, whole⟩ := ih
    refine ⟨rest, resumes.cons e, ?_⟩
    rw [List.cons_append, of, if_neg rejected, if_neg needed]
    dsimp only
    rw [whole]
    rfl

/-- A pattern that refuses nothing of a statement refuses nothing of its beginnings. -/
theorem refused_of_append (none : (of pattern (tokens ++ later)).refused = []) : (of pattern tokens).refused = [] := by
  obtain ⟨rest, _, whole⟩ := of_append pattern tokens later
  rw [whole] at none
  exact refused_of_followed none

/-- What is refused stands in the order of the statement. -/
theorem refused_sublist (pattern : List Element) (tokens : List Indexed) :
    (of pattern tokens).refused.Sublist tokens := by
  fun_induction of pattern tokens with
  | case1 pattern => exact List.nil_sublist _
  | case2 tokens inhabited => exact List.Sublist.refl _
  | case3 e pattern t tokens accepted more ih => exact ih.cons t
  | case4 e pattern t tokens accepted last ih => exact ih.cons t
  | case5 e pattern t tokens rejected optional ih => exact ih
  | case6 e pattern t tokens rejected needed later ih => exact ih.cons_cons t

theorem mem_of_refused (pattern : List Element) (tokens : List Indexed) {x : Indexed}
    (refused : x ∈ (of pattern tokens).refused) : x ∈ tokens :=
  (refused_sublist pattern tokens).subset refused

/-- Elements remain only where the statement has run out. -/
theorem surplus_of_remaining (pattern : List Element) (tokens : List Indexed) :
    (of pattern tokens).remaining = [] ∨ (of pattern tokens).surplus = [] := by
  fun_induction of pattern tokens with
  | case1 pattern => exact Or.inr rfl
  | case2 tokens inhabited => exact Or.inl rfl
  | case3 e pattern t tokens accepted more ih => exact ih
  | case4 e pattern t tokens accepted last ih => exact ih
  | case5 e pattern t tokens rejected optional ih => exact ih
  | case6 e pattern t tokens rejected needed later ih => exact ih

end Alignment
end QueryService
