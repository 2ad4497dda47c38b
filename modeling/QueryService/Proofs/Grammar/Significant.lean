import Mathlib.Data.List.Induction
import QueryService.Grammar.Validation
import QueryService.Proofs.Ascending

/-!
# Significant tokens and their indices

The significant tokens of a list come with their indices in ascending order, and whatever is appended to the
list leaves those before it as they are. A significant token is found by the number of those before it
(`significantIndexed_getElem?`).
-/

namespace QueryService

theorem significantIndexed_tokens (tokens : List Token) :
    (significantIndexed tokens).map (·.token) = significantTokens tokens := by
  rw [significantIndexed, List.filter_map, List.map_map]
  change ((tokens.zipIdx).filter (Token.isSignificant ∘ Prod.fst)).map Prod.fst = _
  rw [← List.filter_map, List.zipIdx_map_fst, significantTokens]

theorem mem_significantIndexed_iff {tokens : List Token} {x : Indexed} :
    x ∈ significantIndexed tokens ↔ tokens[x.index]? = some x.token ∧ x.token.isSignificant = true := by
  rw [significantIndexed, List.mem_filter, List.mem_map]
  refine and_congr_left fun _ => ?_
  constructor
  · rintro ⟨⟨t, i⟩, member, rfl⟩
    exact List.mk_mem_zipIdx_iff_getElem?.mp member
  · intro there
    exact ⟨(x.token, x.index), List.mk_mem_zipIdx_iff_getElem?.mpr there, rfl⟩

theorem significantIndexed_ascending (tokens : List Token) :
    (significantIndexed tokens).Pairwise fun x y => x.index < y.index := by
  refine List.Pairwise.filter _ (List.pairwise_map.mpr ?_)
  have indices : (tokens.zipIdx.map Prod.snd).Pairwise (· < ·) := by
    rw [List.zipIdx_map_snd]
    exact List.pairwise_lt_range'
  exact List.pairwise_map.mp indices

theorem significantIndexed_append (tokens later : List Token) :
    significantIndexed (tokens ++ later) = significantIndexed tokens ++
      ((later.zipIdx tokens.length).map fun (token, index) => (⟨index, token⟩ : Indexed)).filter
        (·.token.isSignificant) := by
  rw [significantIndexed, List.zipIdx_append, List.map_append, List.filter_append, Nat.zero_add]
  rfl

theorem significantIndexed_take (tokens : List Token) (n : Nat) :
    significantIndexed (tokens.take n) <+: significantIndexed tokens := by
  have split := significantIndexed_append (tokens.take n) (tokens.drop n)
  rw [List.take_append_drop] at split
  exact ⟨_, split.symm⟩

theorem significantIndexed_concat (tokens : List Token) (t : Token) :
    significantIndexed (tokens ++ [t]) =
      significantIndexed tokens ++ if t.isSignificant then [⟨tokens.length, t⟩] else [] := by
  rw [significantIndexed_append]
  congr 1
  by_cases significant : t.isSignificant = true
  · simp [significant]
  · simp [significant]

theorem mem_significantIndexed {tokens : List Token} {before behind : List Indexed} {x : Indexed}
    (split : significantIndexed tokens = before ++ x :: behind) :
    ∃ inside : x.index < tokens.length, tokens[x.index] = x.token ∧
      significantIndexed (tokens.take x.index) = before ∧ x.token.isSignificant = true := by
  induction tokens using List.reverseRecOn generalizing behind with
  | nil => exact absurd split (by simp [significantIndexed])
  | append_singleton tokens t ih =>
    have earlier {later : List Indexed} (split : significantIndexed tokens = before ++ x :: later) :
        ∃ inside : x.index < (tokens ++ [t]).length, (tokens ++ [t])[x.index] = x.token ∧
          significantIndexed ((tokens ++ [t]).take x.index) = before ∧ x.token.isSignificant = true := by
      obtain ⟨inside, same, beginning, significant⟩ := ih split
      refine ⟨by rw [List.length_append]; omega, ?_, ?_, significant⟩
      · rw [List.getElem_append_left inside, same]
      · rw [List.take_append_of_le_length (Nat.le_of_lt inside), beginning]
    rw [significantIndexed_concat] at split
    by_cases significant : t.isSignificant = true
    · rw [if_pos significant] at split
      rcases List.eq_nil_or_concat behind with rfl | ⟨kept, last, rfl⟩
      · obtain ⟨same, ends⟩ := List.append_inj' split rfl
        obtain rfl := List.singleton_inj.mp ends
        refine ⟨by simp, by simp, ?_, significant⟩
        rw [List.take_left, same]
      · rw [List.concat_eq_append, ← List.cons_append, ← List.append_assoc] at split
        exact earlier (List.append_inj' split rfl).1
    · rw [if_neg significant, List.append_nil] at split
      exact earlier split

theorem exists_indexed_append (tokens later : List Token) :
    ∃ row, significantIndexed (tokens ++ later) = significantIndexed tokens ++ row ∧
      row.map (·.token) = significantTokens later := by
  refine ⟨_, significantIndexed_append tokens later, ?_⟩
  have texts := significantIndexed_tokens (tokens ++ later)
  rw [significantIndexed_append, List.map_append, significantIndexed_tokens, significantTokens, significantTokens,
    List.filter_append] at texts
  exact List.append_cancel_left texts

/-- A significant token stands behind as many others as there are before it in the list. -/
theorem significantIndexed_getElem? {tokens : List Token} {i : Nat} (inside : i < tokens.length)
    (significant : tokens[i].isSignificant = true) :
    (significantIndexed tokens)[(tokens.take i).countP Token.isSignificant]? = some ⟨i, tokens[i]⟩ := by
  have before : (significantIndexed (tokens.take i)).length = (tokens.take i).countP Token.isSignificant := by
    rw [← List.length_map (·.token), significantIndexed_tokens, List.countP_eq_length_filter, significantTokens]
  have split := significantIndexed_append (tokens.take (i + 1)) (tokens.drop (i + 1))
  rw [List.take_append_drop, List.take_succ_eq_append_getElem inside, significantIndexed_concat, if_pos significant,
    List.append_assoc] at split
  rw [split, ← before, List.getElem?_append_right (Nat.le_refl _), Nat.sub_self, List.length_take,
    Nat.min_eq_left (Nat.le_of_lt inside)]
  rfl

/-! ### Their lines -/

theorem linesOf_ne_nil {tokens : List Indexed} (inhabited : tokens ≠ []) : linesOf tokens ≠ [] := by
  obtain ⟨first, rest, rfl⟩ := List.exists_cons_of_ne_nil inhabited
  exact List.ne_nil_of_mem (Ascending.mem_ofList.mpr (List.mem_cons_self (a := first.token.line)))

theorem mem_linesOf_significant {tokens : List Token} {line : Nat} :
    line ∈ linesOf (significantIndexed tokens) ↔ ∃ t ∈ significantTokens tokens, t.line = line := by
  rw [linesOf, Ascending.mem_ofList, ← significantIndexed_tokens, List.mem_map]
  simp

end QueryService
