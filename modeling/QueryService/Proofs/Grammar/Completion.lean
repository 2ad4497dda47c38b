import QueryService.Proofs.Grammar.Continuation

/-!
# Statements to be completed

A statement of which nothing is refused begins an accepted one (`incomplete_completable`), and a word
that is suggested is not refused when it comes next (`suggestion_accepted`). Both follow from where
alignment goes on, with a few facts about the table that tell apart what may stand there.
-/

namespace QueryService

namespace Element

/-- Whether the word is a single token, which the element accepts. -/
def takes (e : Element) (word : Bytes) : Bool :=
  match tokenize word with
  | [t] => e.accepts t
  | _ => false

theorem takes_iff {e : Element} {word : Bytes} :
    e.takes word = true ↔ ∃ t, tokenize word = [t] ∧ e.accepts t = true := by
  unfold takes
  split
  · rename_i t lexed
    simp [lexed]
  · rename_i several
    refine iff_of_false Bool.false_ne_true ?_
    rintro ⟨t, lexed, _⟩
    exact several t lexed

theorem isSignificant_of_accepts {e : Element} {t : Token} (accepted : e.accepts t = true) : t.isSignificant = true := by
  have admitted := (Bool.and_eq_true_iff.mp accepted).1
  by_contra trivia
  have none : t.terminal? = none := by
    unfold Token.isSignificant at trivia
    unfold Token.terminal?
    cases kind : t.kind <;> simp_all [TokenKind.isSignificant]
  rw [Slot.admits, none] at admitted
  cases admitted

end Element

/-! ### Suggestions -/

theorem takes_words : ∀ r ∈ Rule.table, ∀ e ∈ r.pattern, ∀ word ∈ e.wording.words, e.takes word = true := by
  decide +kernel

theorem mem_completions {pattern : List Element} {word : Bytes} (suggested : word ∈ Alignment.completions pattern) :
    ∃ e ∈ pattern, word ∈ e.wording.words := by
  induction pattern with
  | nil => cases suggested
  | cons e rest ih =>
    rcases List.mem_append.mp suggested with own | behind
    · exact ⟨e, List.mem_cons_self, own⟩
    · split at behind
      · obtain ⟨f, member, own⟩ := ih behind
        exact ⟨f, List.mem_cons_of_mem e member, own⟩
      · cases behind

namespace Alignment

variable {pattern rest : List Element} {tokens : List Indexed} {word : Bytes} {x : Indexed}

/-- A suggested word goes to the element that suggests it, or to an optional one before it. -/
theorem refused_of_suggested (taken : ∀ e ∈ pattern, ∀ word ∈ e.wording.words, e.takes word = true)
    (lexed : tokenize word = [x.token]) (suggested : word ∈ completions pattern) : (of pattern [x]).refused = [] := by
  induction pattern with
  | nil => cases suggested
  | cons e rest ih =>
    rw [of]
    by_cases accepted : e.accepts x.token = true
    · rw [if_pos accepted, if_neg (by simp), of]
      rfl
    · rcases List.mem_append.mp suggested with own | behind
      · obtain ⟨t, single, admitted⟩ := Element.takes_iff.mp (taken e List.mem_cons_self word own)
        rw [lexed] at single
        obtain rfl := List.singleton_inj.mp single
        exact absurd admitted accepted
      · split at behind
        · rename_i optional
          rw [if_neg accepted, if_pos optional]
          exact ih (fun f member => taken f (List.mem_cons_of_mem e member)) behind
        · cases behind

theorem refused_concat_suggested (taken : ∀ e ∈ pattern, ∀ word ∈ e.wording.words, e.takes word = true)
    (lexed : tokenize word = [x.token]) (suggested : word ∈ completions (of pattern tokens).remaining) :
    (of pattern (tokens ++ [x])).refused = (of pattern tokens).refused := by
  obtain ⟨rest, resumes, whole⟩ := of_append pattern tokens [x]
  rw [whole]
  apply refused_followed
  cases resumes with
  | onward =>
    refine refused_of_suggested (fun e member => ?_) lexed suggested
    exact taken e ((remaining_suffix pattern tokens).subset member)
  | held within repeatable accepted =>
    rw [of, if_pos (by simpa using accepted), if_neg (by simp), of]
    rfl

end Alignment

namespace Rule

/-- What fits has come to the end, since no statement ends before its semicolon. -/
theorem remaining_of_fits {r : Rule} {tokens : List Indexed} (listed : r ∈ table)
    (fits : (Alignment.of r.pattern tokens).fits = true) : (Alignment.of r.pattern tokens).remaining = [] := by
  obtain ⟨passed, split⟩ := Alignment.remaining_suffix r.pattern tokens
  rcases List.eq_nil_or_concat (Alignment.of r.pattern tokens).remaining with none | ⟨before, last, some⟩
  · exact none
  have ends := ends_table r listed
  rw [← split, some, List.concat_eq_append, ← List.append_assoc, List.getLast?_concat] at ends
  obtain rfl := Option.some.inj ends
  simp only [Alignment.fits, Alignment.required, Bool.and_eq_true, List.isEmpty_iff, some] at fits
  obtain ⟨_, needed⟩ := fits
  have semicolon := List.filter_eq_nil_iff.mp needed (Element.mark .semicolon) (by simp)
  exact absurd rfl semicolon

/-- The candidates are known from the first word on. -/
theorem candidates_append {tokens later : List Token} (recognized : candidates (statementText tokens) ≠ []) :
    candidates (statementText (tokens ++ later)) = candidates (statementText tokens) := by
  have written : statementText tokens ≠ [] := by
    intro blank
    rw [blank] at recognized
    exact recognized rfl
  have first : (statementText (tokens ++ later)).takeWhile (· != Byte.space) =
      (statementText tokens).takeWhile (· != Byte.space) := by
    unfold statementText at written ⊢
    rw [List.map_append]
    rcases Bytes.joined_append written (later.map (Bytes.toUpper ·.value)) with same | ⟨behind, more⟩
    · rw [same]
    · rw [more, List.takeWhile_append]
      split
      · rename_i whole
        rw [(List.takeWhile_prefix _).eq_of_length whole]
        simp
      · rfl
  rw [candidates, candidates, first]

end Rule

/-- An accepted statement is complete, so only what no candidate fits has words suggested for it. -/
theorem unfit_of_suggested {tokens : List Token} {word : Bytes} (suggested : word ∈ completions tokens) :
    ∀ r ∈ Rule.candidates (statementText (significantTokens tokens)),
      (Alignment.of r.pattern (significantIndexed tokens)).fits = false := by
  intro r candidate
  apply Bool.eq_false_of_not_eq_true
  intro fits
  obtain ⟨q, listed, fits, report⟩ := validate_of_fits candidate fits
  have complete := Rule.remaining_of_fits (Rule.mem_table_of_candidate listed) fits
  rw [completions, report, validateAgainst, ofAlignment_completions, complete] at suggested
  cases suggested

/-- A word that is suggested behind a statement is a token, and it is not refused there. -/
theorem suggestion_accepted {tokens : List Token} {word : Bytes}
    (recognized : Rule.candidates (statementText (significantTokens tokens)) ≠ [])
    (suggested : word ∈ completions tokens) : ∃ t, tokenize word = [t] ∧ isTokenValid t tokens = true := by
  obtain ⟨first, foremost⟩ := Option.isSome_iff_exists.mp (List.isSome_head?.mpr recognized)
  have listed := Rule.mem_table_of_candidate (List.mem_of_head? foremost)
  have unfit := unfit_of_suggested suggested
  rw [completions, validate_of_unfit foremost unfit, validateAgainst, ofAlignment_completions] at suggested
  obtain ⟨e, member, own⟩ := mem_completions suggested
  have taken := takes_words first listed
  obtain ⟨t, lexed, accepted⟩ := Element.takes_iff.mp
    (taken e ((Alignment.remaining_suffix _ _).subset member) word own)
  have extended : significantIndexed (tokens ++ [t]) = significantIndexed tokens ++ [⟨tokens.length, t⟩] := by
    rw [significantIndexed_concat, if_pos (Element.isSignificant_of_accepts accepted)]
  have candidates : Rule.candidates (statementText (significantTokens (tokens ++ [t]))) =
      Rule.candidates (statementText (significantTokens tokens)) := by
    rw [significantTokens, List.filter_append]
    exact Rule.candidates_append recognized
  refine ⟨t, lexed, ?_⟩
  suffices unflagged : tokens.length ∉ (validate (tokens ++ [t])).invalidTokens by
    rw [isTokenValid]
    simpa using unflagged
  intro flagged
  obtain ⟨x, refused, last⟩ := refused_of_flagged (by rw [candidates]; exact foremost) flagged
  rw [extended, Alignment.refused_concat_suggested taken lexed suggested] at refused
  obtain ⟨before, behind, split⟩ := List.append_of_mem (Alignment.mem_of_refused _ _ refused)
  obtain ⟨inside, _⟩ := mem_significantIndexed split
  omega

theorem misplaced_add_goes_on :
    let tokens := tokenize (ascii "ADD x")
    Rule.candidates (statementText (significantTokens tokens)) ≠ [] ∧ ascii "TO" ∈ completions tokens ∧
      ∃ t, tokenize (ascii "TO") = [t] ∧ isTokenValid t tokens = true := by
  intro tokens
  have recognized : Rule.candidates (statementText (significantTokens tokens)) ≠ [] := by decide +kernel
  have suggested : ascii "TO" ∈ completions tokens := by decide +kernel
  exact ⟨recognized, suggested, suggestion_accepted recognized suggested⟩

/-! ### Beginnings of accepted statements -/

namespace Element

/-- A word that may stand where the element does. -/
def sample (e : Element) : Bytes :=
  match e.wording.words, e.slot with
  | word :: _, _ => word
  | [], .terminal .parenOpen => [Byte.parenOpen]
  | [], .terminal .parenClose => [Byte.parenClose]
  | [], .terminal .bracketOpen => [Byte.bracketOpen]
  | [], .terminal .bracketClose => [Byte.bracketClose]
  | [], .terminal .semicolon => [Byte.semicolon]
  | [], _ => ascii "x"

end Element

/-- The shortest row that goes through a pattern. -/
def shortestRow (pattern : List Element) : List Token :=
  (pattern.filter (!·.optional)).flatMap (tokenize ·.sample)

/-- The shortest row goes through the pattern: each required element takes its own sample, and none that
may be left out or repeated takes the next one. -/
def passable : List Element → Bool
  | [] => true
  | e :: rest =>
    (e.optional || e.takes e.sample) &&
      (!(e.optional || e.repeatable) || !(shortestRow rest).head?.any e.accepts) && passable rest

theorem passable_table : ∀ r ∈ Rule.table, passable r.pattern = true := by
  decide +kernel

theorem shortestRow_of_optional {e : Element} {rest : List Element} (optional : e.optional = true) :
    shortestRow (e :: rest) = shortestRow rest := by
  simp [shortestRow, optional]

theorem shortestRow_of_needed {e : Element} {rest : List Element} (needed : e.optional = false) :
    shortestRow (e :: rest) = tokenize e.sample ++ shortestRow rest := by
  simp [shortestRow, needed]

theorem passable_of_suffix {pattern rest : List Element} (suffix : rest <:+ pattern) (passes : passable pattern = true) :
    passable rest = true := by
  obtain ⟨passed, rfl⟩ := suffix
  induction passed with
  | nil => exact passes
  | cons e passed ih => exact ih (Bool.and_eq_true_iff.mp passes).2

/-- The elements of a pattern that can be passed, one by one. -/
theorem passable_cons {e : Element} {rest : List Element} (passes : passable (e :: rest) = true) :
    (e.optional = true ∨ ∃ t, tokenize e.sample = [t] ∧ e.accepts t = true) ∧
      (e.optional = true ∨ e.repeatable = true → (shortestRow rest).head?.any e.accepts = false) ∧
      passable rest = true := by
  simp only [passable, Bool.and_eq_true, Bool.or_eq_true, Bool.not_eq_true', Bool.or_eq_false_iff,
    Element.takes_iff] at passes
  obtain ⟨⟨own, next⟩, later⟩ := passes
  refine ⟨own, fun loose => next.resolve_left ?_, later⟩
  rintro ⟨needed, once⟩
  rcases loose with optional | repeatable
  · rw [needed] at optional
    cases optional
  · rw [once] at repeatable
    cases repeatable

theorem lexed_of_shortestRow {pattern : List Element} (passes : passable pattern = true) :
    ∀ t ∈ shortestRow pattern, (∃ word, tokenize word = [t]) ∧ t.isSignificant = true := by
  induction pattern with
  | nil => exact nofun
  | cons e rest ih =>
    obtain ⟨own, _, later⟩ := passable_cons passes
    cases optional : e.optional with
    | true =>
      rw [shortestRow_of_optional optional]
      exact ih later
    | false =>
      obtain ⟨u, lexed, accepted⟩ := own.resolve_left (by simp [optional])
      rw [shortestRow_of_needed optional, lexed]
      intro t member
      rcases List.mem_cons.mp member with rfl | behind
      · exact ⟨⟨e.sample, lexed⟩, Element.isSignificant_of_accepts accepted⟩
      · exact ih later t behind

namespace Alignment

theorem head_rejected {e : Element} {rest : List Element} {row : List Indexed} (passes : passable (e :: rest) = true)
    (loose : e.optional = true ∨ e.repeatable = true) (shortest : row.map (·.token) = shortestRow rest) :
    row.head?.any (fun next => e.accepts next.token) = false := by
  obtain ⟨_, next, _⟩ := passable_cons passes
  have rejected := next loose
  rw [← shortest, List.head?_map, Option.any_map] at rejected
  exact rejected

theorem fits_shortestRow {pattern : List Element} {row : List Indexed} (passes : passable pattern = true)
    (shortest : row.map (·.token) = shortestRow pattern) : (of pattern row).fits = true := by
  induction pattern generalizing row with
  | nil =>
    obtain rfl := List.map_eq_nil_iff.mp shortest
    rw [of]
    rfl
  | cons e rest ih =>
    obtain ⟨own, _, later⟩ := passable_cons passes
    cases optional : e.optional with
    | true =>
      rw [shortestRow_of_optional optional] at shortest
      have through := ih later shortest
      cases row with
      | nil => simpa [of, fits, required, optional] using through
      | cons x row =>
        have rejected := head_rejected passes (Or.inl optional) shortest
        rw [of, if_neg (by simpa using rejected), if_pos optional]
        exact through
    | false =>
      obtain ⟨t, lexed, accepted⟩ := own.resolve_left (by simp [optional])
      rw [shortestRow_of_needed optional, lexed, List.singleton_append] at shortest
      obtain ⟨x, row, rfl, rfl, behind⟩ := List.map_eq_cons_iff.mp shortest
      have once : ¬ (e.repeatable && row.head?.any fun next => e.accepts next.token) = true := by
        intro more
        obtain ⟨repeatable, again⟩ := Bool.and_eq_true_iff.mp more
        rw [head_rejected passes (Or.inr repeatable) behind] at again
        cases again
      rw [of, if_pos accepted, if_neg once]
      exact ih later behind

/-- What a pattern has not refused so far is gone on with up to the end of the pattern. -/
theorem fits_append_shortestRow {pattern : List Element} {tokens row : List Indexed} (passes : passable pattern = true)
    (unrefused : (of pattern tokens).refused = [])
    (shortest : row.map (·.token) = shortestRow (of pattern tokens).remaining) :
    (of pattern (tokens ++ row)).fits = true := by
  obtain ⟨rest, resumes, whole⟩ := of_append pattern tokens row
  obtain ⟨misplaced, surplus⟩ := List.append_eq_nil_iff.mp unrefused
  have first : (of pattern tokens).followed (of rest row) = of rest row := by
    rw [followed, List.map_eq_nil_iff.mp misplaced, surplus]
    rfl
  rw [whole, first]
  cases resumes with
  | onward => exact fits_shortestRow (passable_of_suffix (remaining_suffix pattern tokens) passes) shortest
  | held within repeatable accepted =>
    -- The row to come begins with what the element in its place does not take.
    rw [head_rejected (passable_of_suffix within passes) (Or.inr repeatable) shortest] at accepted
    cases accepted

end Alignment

/-- What a candidate has refused nothing of is accepted with the shortest row that goes on with it. -/
theorem valid_append_shortestRow {tokens : List Token} {r : Rule} (significant : significantTokens tokens ≠ [])
    (candidate : r ∈ Rule.candidates (statementText (significantTokens tokens)))
    (unrefused : (Alignment.of r.pattern (significantIndexed tokens)).refused = []) :
    (validate (tokens ++ shortestRow (Alignment.of r.pattern (significantIndexed tokens)).remaining)).valid = true := by
  have passes := passable_table r (Rule.mem_table_of_candidate candidate)
  have lexed := lexed_of_shortestRow (passable_of_suffix (Alignment.remaining_suffix _ (significantIndexed tokens)) passes)
  generalize rest : shortestRow (Alignment.of r.pattern (significantIndexed tokens)).remaining = more at lexed ⊢
  have wholly : significantTokens more = more := List.filter_eq_self.mpr fun t member => (lexed t member).2
  have texts : significantTokens (tokens ++ more) = significantTokens tokens ++ more := by
    rw [significantTokens, List.filter_append, ← significantTokens, ← significantTokens, wholly]
  obtain ⟨row, split, shortest⟩ := exists_indexed_append tokens more
  have fits : (Alignment.of r.pattern (significantIndexed (tokens ++ more))).fits = true := by
    rw [split]
    exact Alignment.fits_append_shortestRow passes unrefused (by rw [shortest, wholly, rest])
  rw [(validate_of_find? (by simp [texts, significant]) rfl).1, texts,
    Rule.candidates_append (List.ne_nil_of_mem candidate), List.find?_isSome]
  exact ⟨r, candidate, fits⟩

/-- A statement that is refused without a token to blame is incomplete: some more tokens make it an
accepted one. -/
theorem incomplete_completable {tokens : List Token} (invalid : (validate tokens).valid = false)
    (unflagged : (validate tokens).invalidTokens = []) :
    (∀ s ∈ (validate tokens).shortfalls, s.defect = .incomplete) ∧
      ∃ more, more ≠ [] ∧ (∀ t ∈ more, ∃ word, tokenize word = [t]) ∧ (validate (tokens ++ more)).valid = true := by
  have significant : significantTokens tokens ≠ [] := by
    intro blank
    rw [validate_eq_of_blank blank] at invalid
    cases invalid
  have recognized : Rule.candidates (statementText (significantTokens tokens)) ≠ [] := by
    intro unrecognized
    obtain ⟨_, _, _, report⟩ := validate_of_unrecognized significant unrecognized
    rw [report] at unflagged
    cases unflagged
  have unfit : ∀ r ∈ Rule.candidates (statementText (significantTokens tokens)),
      (Alignment.of r.pattern (significantIndexed tokens)).fits = false := by
    intro r candidate
    apply Bool.eq_false_of_not_eq_true
    intro fits
    rw [(validate_of_find? significant rfl).1, List.find?_isSome.mpr ⟨r, candidate, fits⟩] at invalid
    cases invalid
  obtain ⟨first, foremost⟩ := Option.isSome_iff_exists.mp (List.isSome_head?.mpr recognized)
  have candidate := List.mem_of_head? foremost
  have unrefused : (Alignment.of first.pattern (significantIndexed tokens)).refused = [] := by
    rw [invalidTokens_of_unfit foremost unfit] at unflagged
    exact List.map_eq_nil_iff.mp unflagged
  have accepted := valid_append_shortestRow significant candidate unrefused
  refine ⟨?_, _, ?_, fun t member => ?_, accepted⟩
  · rw [validate_of_unfit foremost unfit]
    exact ofAlignment_incomplete (unfit first candidate) unrefused
  · intro none
    rw [none, List.append_nil, invalid] at accepted
    cases accepted
  · have passes := passable_table first (Rule.mem_table_of_candidate candidate)
    exact (lexed_of_shortestRow (passable_of_suffix (Alignment.remaining_suffix _ _) passes) t member).1

theorem open_bracket_completable :
    let tokens := tokenize (ascii "UPDATE BUNDLE b [ADD")
    (validate tokens).valid = false ∧ (validate tokens).invalidTokens = [] ∧
      (∀ s ∈ (validate tokens).shortfalls, s.defect = .incomplete) ∧
      ∃ more, more ≠ [] ∧ (∀ t ∈ more, ∃ word, tokenize word = [t]) ∧ (validate (tokens ++ more)).valid = true := by
  intro tokens
  have invalid : (validate tokens).valid = false := by decide +kernel
  have unflagged : (validate tokens).invalidTokens = [] := by decide +kernel
  exact ⟨invalid, unflagged, incomplete_completable invalid unflagged⟩

end QueryService
