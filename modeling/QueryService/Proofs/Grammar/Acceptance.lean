import Mathlib.Data.List.Find
import QueryService.Proofs.Grammar.Alignment
import QueryService.Proofs.Grammar.Report
import QueryService.Proofs.Grammar.Significant
import QueryService.Token.Lexer

/-!
# Accepted statements

`validate_valid_iff_derived` states that validation accepts a statement exactly if some rule of the
table derives it, and then reports the first such rule. Neither the choice of candidates by the first
word nor greedy alignment loses a statement.
-/

namespace QueryService

/-! ### The choice of candidates -/

theorem firstWord_joined {x : Bytes} {items : List Bytes} (nonempty : x ≠ []) (spaceless : Byte.space ∉ x) :
    (Bytes.joined [Byte.space] (x :: items)).takeWhile (· != Byte.space) = x := by
  have whole : ∀ c ∈ x, (c != Byte.space) = true := by
    intro c member
    exact bne_iff_ne.mpr fun same => spaceless (same ▸ member)
  rcases Bytes.joined_cons nonempty with alone | ⟨later, more⟩
  · rw [alone]
    rw [← List.append_nil x, List.takeWhile_append_of_pos whole, List.takeWhile_nil]
  · rw [more, List.takeWhile_append_of_pos whole]
    simp

namespace Rule

/-- A statement of this form begins with a word of its own, which has no space in it. -/
def startsWithWord (r : Rule) : Bool :=
  match r.pattern with
  | { wording := .exactly word, optional := false, .. } :: _ =>
    !word.isEmpty && !(Bytes.toUpper word).contains Byte.space
  | _ => false

theorem startsWithWord_table : ∀ r ∈ table, r.startsWithWord = true := by
  decide +kernel

theorem leading_of_derived {r : Rule} {row : List Token} (starts : r.startsWithWord = true)
    (derived : row ∈ r.language) :
    r.leading ≠ [] ∧ Byte.space ∉ Bytes.toUpper r.leading ∧
      ∃ t rest, row = t :: rest ∧ Bytes.sameWord t.value r.leading = true := by
  obtain ⟨name, description, pattern, examples⟩ := r
  simp only [startsWithWord] at starts
  split at starts
  · rename_i slot word placeholder repeatable rest
    simp only [Bool.and_eq_true, Bool.not_eq_true', List.isEmpty_eq_false_iff] at starts
    refine ⟨starts.1, by simpa [leading] using starts.2, ?_⟩
    cases row with
    | nil => exact absurd (nil_mem_patternLanguage_cons.mp derived).1 (by simp)
    | cons t row =>
      rcases cons_mem_patternLanguage_cons.mp derived with ⟨optional, _⟩ | ⟨accepted, _⟩
      · cases optional
      · exact ⟨t, row, rfl, (Bool.and_eq_true_iff.mp accepted).2⟩
  · cases starts

theorem mem_candidates_of_derived {r : Rule} {row : List Token} (listed : r ∈ table)
    (derived : row ∈ r.language) : r ∈ candidates (statementText row) := by
  obtain ⟨nonempty, spaceless, t, rest, rfl, same⟩ :=
    leading_of_derived (startsWithWord_table r listed) derived
  have upper : Bytes.toUpper t.value = Bytes.toUpper r.leading := Bytes.sameWord_iff.mp same
  have first : (statementText (t :: rest)).takeWhile (· != Byte.space) = Bytes.toUpper r.leading := by
    rw [statementText, List.map_cons, upper]
    exact firstWord_joined (by simpa using nonempty) spaceless
  have spelled : Bytes.sameWord r.leading (Bytes.toUpper r.leading) = true := by
    rw [Bytes.sameWord_iff, Bytes.toUpper_toUpper]
  rw [candidates, first]
  simp [listed, spelled, nonempty]

theorem candidates_eq_filter (text : Bytes) : ∃ p : Rule → Bool, candidates text = table.filter p := by
  unfold candidates
  dsimp only
  split
  · exact ⟨fun _ => false, by simp⟩
  · exact ⟨_, rfl⟩

theorem mem_table_of_candidate {r : Rule} {text : Bytes} (candidate : r ∈ candidates text) : r ∈ table := by
  obtain ⟨p, filtered⟩ := candidates_eq_filter text
  rw [filtered] at candidate
  exact List.mem_of_mem_filter candidate

theorem find?_candidates {text : Bytes} {fits : Rule → Bool}
    (shortlisted : ∀ r ∈ table, fits r = true → r ∈ candidates text) :
    (candidates text).find? fits = table.find? fits := by
  obtain ⟨p, filtered⟩ := candidates_eq_filter text
  rw [filtered, List.find?_filter]
  refine List.find?_congr fun r listed => ?_
  by_cases fit : fits r = true
  · have member := shortlisted r listed fit
    rw [filtered] at member
    simp [fit, (List.mem_filter.mp member).2]
  · simp [fit]

end Rule

/-! ### Validation -/

theorem validate_eq_of_blank {tokens : List Token} (blank : significantTokens tokens = []) : validate tokens = {} := by
  have none : significantIndexed tokens = [] := by
    rw [← significantIndexed_tokens] at blank
    exact List.map_eq_nil_iff.mp blank
  rw [validate, none]

/-- The report is the one against the first candidate that fits, or against the first of all. -/
theorem validate_of_candidates {tokens : List Token} {first : Rule}
    (foremost : (Rule.candidates (statementText (significantTokens tokens))).head? = some first) :
    validate tokens = validateAgainst (significantIndexed tokens)
      (((Rule.candidates (statementText (significantTokens tokens))).find? fun r =>
        (Alignment.of r.pattern (significantIndexed tokens)).fits).getD first) := by
  have texts := significantIndexed_tokens tokens
  unfold validate
  dsimp only
  rw [texts]
  split
  · rename_i blank
    rw [blank] at texts
    rw [← texts] at foremost
    cases foremost
  split
  · rename_i none
    rw [none] at foremost
    cases foremost
  · rename_i candidate others shortlist
    rw [shortlist] at foremost ⊢
    rw [Option.some.inj foremost]

/-- A statement that starts like none of the rules is refused as a whole. -/
theorem validate_of_unrecognized {tokens : List Token} (significant : significantTokens tokens ≠ [])
    (unrecognized : Rule.candidates (statementText (significantTokens tokens)) = []) :
    ∃ first rest, significantIndexed tokens = first :: rest ∧
      validate tokens = .unrecognized first.token (first :: rest) := by
  have texts := significantIndexed_tokens tokens
  cases indexed : significantIndexed tokens with
  | nil => exact absurd (by rw [← texts, indexed]; rfl) significant
  | cons first rest =>
    refine ⟨first, rest, rfl, ?_⟩
    unfold validate
    dsimp only
    rw [texts, unrecognized, indexed]

theorem validate_of_find? {tokens : List Token} (significant : significantTokens tokens ≠ [])
    {found : Option Rule}
    (first : (Rule.candidates (statementText (significantTokens tokens))).find?
      (fun r => (Alignment.of r.pattern (significantIndexed tokens)).fits) = found) :
    (validate tokens).valid = found.isSome ∧ (found.isSome = true → (validate tokens).rule = found) := by
  cases shortlist : Rule.candidates (statementText (significantTokens tokens)) with
  | nil =>
    rw [shortlist] at first
    subst first
    obtain ⟨_, _, _, report⟩ := validate_of_unrecognized significant shortlist
    rw [report]
    exact ⟨rfl, nofun⟩
  | cons candidate others =>
    rw [validate_of_candidates (by rw [shortlist]; rfl), first, validateAgainst, ofAlignment_valid]
    cases found with
    | none =>
      have refused := List.find?_eq_none.mp first candidate (by rw [shortlist]; exact List.mem_cons_self)
      exact ⟨by simpa using refused, nofun⟩
    | some r =>
      have fits := List.find?_some first
      exact ⟨by simpa using fits, fun _ => ofAlignment_rule (by simpa using fits)⟩

/-- Validation accepts exactly what some rule derives, and the first such rule is the one reported. -/
theorem validate_valid_iff_derived (tokens : List Token) (keyed : ∀ t ∈ tokens, t.Keyed)
    (significant : significantTokens tokens ≠ []) :
    ((validate tokens).valid = true ↔ ∃ r ∈ Rule.table, significantTokens tokens ∈ r.language) ∧
    ((validate tokens).valid = true → ∃ earlier r later, Rule.table = earlier ++ r :: later ∧
      (validate tokens).rule = some r ∧ significantTokens tokens ∈ r.language ∧
      ∀ q ∈ earlier, significantTokens tokens ∉ q.language) := by
  have fits_iff : ∀ r ∈ Rule.table, (Alignment.of r.pattern (significantIndexed tokens)).fits = true ↔
      significantTokens tokens ∈ r.language := by
    intro r listed
    rw [← significantIndexed_tokens]
    refine Alignment.fits_iff_mem_language (fun t member => keyed t.token ?_) (absorbing_table r listed)
    have := List.mem_map_of_mem (f := Indexed.token) member
    rw [significantIndexed_tokens] at this
    exact (List.mem_filter.mp this).1
  have found := validate_of_find? significant rfl
  rw [Rule.find?_candidates fun r listed fits =>
    Rule.mem_candidates_of_derived listed ((fits_iff r listed).mp fits)] at found
  obtain ⟨valid, rule⟩ := found
  refine ⟨?_, fun accepted => ?_⟩
  · rw [valid, List.find?_isSome]
    exact exists_congr fun r => and_congr_right (fits_iff r)
  · rw [valid] at accepted
    obtain ⟨r, first⟩ := Option.isSome_iff_exists.mp accepted
    obtain ⟨fits, earlier, later, split, refused⟩ := List.find?_eq_some_iff_append.mp first
    have listed : r ∈ Rule.table := List.mem_of_find?_eq_some first
    refine ⟨earlier, r, later, split, (rule accepted).trans first, (fits_iff r listed).mp fits, ?_⟩
    intro q member derived
    have before : q ∈ Rule.table := split ▸ List.mem_append_left _ member
    simpa [(fits_iff q before).mpr derived] using refused q member

theorem join_accepted :
    let tokens := tokenize (ascii "select documents from a join b on x = y and z where w > 1;")
    (∀ t ∈ tokens, t.Keyed) ∧ significantTokens tokens ≠ [] ∧ (validate tokens).valid = true ∧
      ∃ r ∈ Rule.table, significantTokens tokens ∈ r.language := by
  intro tokens
  have keyed : ∀ t ∈ tokens, t.Keyed := by decide +kernel
  have significant : significantTokens tokens ≠ [] := by decide +kernel
  have accepted : (validate tokens).valid = true := by decide +kernel
  exact ⟨keyed, significant, accepted,
    (validate_valid_iff_derived tokens keyed significant).1.mp accepted⟩

end QueryService
