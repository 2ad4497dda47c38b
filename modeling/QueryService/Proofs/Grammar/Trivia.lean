import QueryService.Proofs.Grammar.Continuation
import QueryService.Proofs.Grammar.Correspondence

/-!
# Validation without trivia

White space, line breaks and comments may stand anywhere between the tokens of a statement: they move its
significant tokens to other indices and other places, and that is all validation sees of them
(`trivia_immaterial`). Two lists of the same significant tokens are compared rank by rank.
-/

namespace QueryService

theorem Token.alike_of_same {t u : Token} (kind : t.kind = u.kind) (value : t.value = u.value)
    (keyword : t.keyword = u.keyword) : t.Alike u where
  accepts := by
    refine Element.accepts_congr ?_ (Bytes.sameWord_iff.mpr (by rw [value])) keyword
    simp only [terminal?, symbolTerminal?, kind, value]
  text := by rw [value]

variable {tokens others : List Token} {x y x' y' : Indexed} {xs ys : List Indexed}

/-! ### Tokens of the same rank -/

/-- Both tokens stand behind the same number of significant tokens, each in its own list. -/
def SameRank (tokens others : List Token) (x y : Indexed) : Prop :=
  ∃ k : Nat, (significantIndexed tokens)[k]? = some x ∧ (significantIndexed others)[k]? = some y

theorem rank_unique {k k' : Nat} (first : (significantIndexed tokens)[k]? = some x)
    (second : (significantIndexed tokens)[k']? = some x') (same : x.index = x'.index) : k = k' := by
  have ascending := List.pairwise_map.mpr (significantIndexed_ascending tokens)
  have there : ((significantIndexed tokens).map (·.index))[k]? = some x.index := by rw [List.getElem?_map, first]; rfl
  have there' : ((significantIndexed tokens).map (·.index))[k']? = some x.index := by
    rw [List.getElem?_map, second, same]
    rfl
  obtain ⟨inside, _⟩ := List.getElem?_eq_some_iff.mp there
  exact (List.getElem?_inj inside (ascending.imp Nat.ne_of_lt)).mp (there.trans there'.symm)

theorem SameRank.index_iff (first : SameRank tokens others x y) (second : SameRank tokens others x' y') :
    x.index = x'.index ↔ y.index = y'.index := by
  obtain ⟨k, left, right⟩ := first
  obtain ⟨k', left', right'⟩ := second
  constructor
  · intro same
    obtain rfl := rank_unique left left' same
    rw [Option.some.inj (right.symm.trans right')]
  · intro same
    obtain rfl := rank_unique right right' same
    rw [Option.some.inj (left.symm.trans left')]

theorem SameRank.index_mem_iff (pair : SameRank tokens others x y) (rows : List.Forall₂ (SameRank tokens others) xs ys) :
    x.index ∈ xs.map (·.index) ↔ y.index ∈ ys.map (·.index) := by
  induction rows with
  | nil => exact iff_of_false List.not_mem_nil List.not_mem_nil
  | cons first rest ih => rw [List.map_cons, List.map_cons, List.mem_cons, List.mem_cons, ih, pair.index_iff first]

theorem rows_sameRank (length : (significantIndexed tokens).length = (significantIndexed others).length) :
    List.Forall₂ (SameRank tokens others) (significantIndexed tokens) (significantIndexed others) := by
  refine List.forall₂_iff_get.mpr ⟨length, fun k inside inside' => ⟨k, ?_, ?_⟩⟩
  · exact List.getElem?_eq_getElem inside
  · exact List.getElem?_eq_getElem inside'

/-! ### Reports -/

theorem Alignment.Corresponds.refused {R : Indexed → Indexed → Prop} {a b : Alignment} (corresponds : Corresponds R a b) :
    List.Forall₂ R a.refused b.refused := by
  refine List.rel_append ?_ corresponds.surplus
  rw [List.forall₂_map_left_iff, List.forall₂_map_right_iff]
  exact corresponds.misplaced.imp fun _ _ related => related.1

/-- Two reports that say the same of the significant tokens of their lists. -/
structure SameVerdict (tokens others : List Token) (r s : Report) : Prop where
  valid : r.valid = s.valid
  rule : r.rule = s.rule
  expected : r.expected = s.expected
  completions : r.completions = s.completions
  message : r.message = s.message
  flagged : ∀ x y, SameRank tokens others x y → (x.index ∈ r.invalidTokens ↔ y.index ∈ s.invalidTokens)

theorem sameVerdict_ofAlignment (rule : Rule) {a b : Alignment}
    (corresponds : Alignment.Corresponds (SameRank tokens others) a b) :
    SameVerdict tokens others (.ofAlignment rule xs a) (.ofAlignment rule ys b) := by
  have flagged (x y : Indexed) (pair : SameRank tokens others x y) :
      x.index ∈ (Report.ofAlignment rule xs a).invalidTokens ↔ y.index ∈ (Report.ofAlignment rule ys b).invalidTokens := by
    rw [ofAlignment_invalidTokens, ofAlignment_invalidTokens]
    exact pair.index_mem_iff corresponds.refused
  refine ⟨?_, ?_, ?_, ?_, ?_, flagged⟩ <;> unfold Report.ofAlignment <;> rw [corresponds.fits, corresponds.remaining] <;>
    split <;> rfl

theorem sameVerdict_unrecognized (rows : List.Forall₂ (SameRank tokens others) xs ys) (t u : Token) :
    SameVerdict tokens others (.unrecognized t xs) (.unrecognized u ys) :=
  ⟨rfl, rfl, rfl, rfl, rfl, fun _ _ pair => pair.index_mem_iff rows⟩

theorem sameVerdict_validate
    (same : (significantTokens tokens).map (fun t => (t.kind, t.value, t.keyword)) =
      (significantTokens others).map fun t => (t.kind, t.value, t.keyword)) :
    SameVerdict tokens others (validate tokens) (validate others) := by
  have rank : (significantIndexed tokens).map (fun x => (x.token.kind, x.token.value, x.token.keyword)) =
      (significantIndexed others).map fun x => (x.token.kind, x.token.value, x.token.keyword) := by
    rwa [← significantIndexed_tokens, ← significantIndexed_tokens, List.map_map, List.map_map] at same
  have rows := rows_sameRank (by simpa using congrArg List.length rank)
  have blank (x y : Indexed) (_ : SameRank tokens others x y) :
      x.index ∈ ({} : Report).invalidTokens ↔ y.index ∈ ({} : Report).invalidTokens :=
    iff_of_false List.not_mem_nil List.not_mem_nil
  refine validate_of_rows (fun x y pair => ?_) rows _ ⟨rfl, rfl, rfl, rfl, rfl, blank⟩
    (fun x y xs ys rows => sameVerdict_unrecognized rows x.token y.token)
    fun rule xs ys a b _ _ corresponds => sameVerdict_ofAlignment rule corresponds
  obtain ⟨k, left, right⟩ := pair
  have there := congrArg (·[k]?) rank
  simp only [List.getElem?_map, left, right, Option.map_some, Option.some.injEq, Prod.mk.injEq] at there
  exact Token.alike_of_same there.1 there.2.1 there.2.2

/-- Trivia do not matter to validation: lists with the same significant tokens get the same verdict, and of
each significant token it is the same. -/
theorem trivia_immaterial
    (same : (significantTokens tokens).map (fun t => (t.kind, t.value, t.keyword)) =
      (significantTokens others).map fun t => (t.kind, t.value, t.keyword)) :
    (validate tokens).valid = (validate others).valid ∧
    (validate tokens).rule = (validate others).rule ∧
    (validate tokens).expected = (validate others).expected ∧
    (validate tokens).completions = (validate others).completions ∧
    (validate tokens).message = (validate others).message ∧
    ∀ (i j : Nat) (inside : i < tokens.length) (inside' : j < others.length),
      tokens[i].isSignificant = true → others[j].isSignificant = true →
      (tokens.take i).countP Token.isSignificant = (others.take j).countP Token.isSignificant →
      (i ∈ (validate tokens).invalidTokens ↔ j ∈ (validate others).invalidTokens) := by
  obtain ⟨valid, rule, expected, completions, message, flagged⟩ := sameVerdict_validate same
  refine ⟨valid, rule, expected, completions, message, ?_⟩
  intro i j inside inside' significant significant' rank
  refine flagged ⟨i, tokens[i]⟩ ⟨j, others[j]⟩ ⟨_, significantIndexed_getElem? inside significant, ?_⟩
  rw [rank]
  exact significantIndexed_getElem? inside' significant'

/-- Comments and a line break move the misplaced `b` from index 4 to index 6. -/
theorem commented_add_judged_alike :
    let plain := tokenize (ascii "ADD a b;")
    let spread := tokenize (ascii "-- c\nADD/* ; */a\r\nb ;")
    (significantTokens plain).map (fun t => (t.kind, t.value, t.keyword)) =
        (significantTokens spread).map (fun t => (t.kind, t.value, t.keyword)) ∧
      (validate plain).valid = (validate spread).valid ∧
      (validate plain).rule = (validate spread).rule ∧
      (validate plain).expected = (validate spread).expected ∧
      (validate plain).completions = (validate spread).completions ∧
      (validate plain).message = (validate spread).message ∧
      (4 ∈ (validate plain).invalidTokens ↔ 6 ∈ (validate spread).invalidTokens) := by
  intro plain spread
  have same : (significantTokens plain).map (fun t => (t.kind, t.value, t.keyword)) =
      (significantTokens spread).map fun t => (t.kind, t.value, t.keyword) := by decide +kernel
  obtain ⟨valid, rule, expected, completions, message, flagged⟩ := trivia_immaterial same
  refine ⟨same, valid, rule, expected, completions, message, ?_⟩
  exact flagged 4 6 (by decide +kernel) (by decide +kernel) (by decide +kernel) (by decide +kernel) (by decide +kernel)

end QueryService
