import QueryService.Proofs.Grammar.Acceptance
import QueryService.Proofs.Token.Boundary

/-!
# Statements read token by token

A beginning of a statement fits no rule, so it is judged by the first candidate alone. Whether an
accepted statement is accepted token by token depends on its rule for that reason: it is if no rule
before it in the table begins with the same word (`accepted_token_by_token_iff`). Where there is one,
the two patterns part at some token, and there the statement is refused.
-/

namespace QueryService

/-! ### Tokens of a text -/

namespace Lexer

theorem keyed_token {kind : TokenKind} (plain : kind ≠ .keyword) (value : Bytes) (start : Nat) (p : Position) :
    (token kind value start p).Keyed := by
  unfold Token.Keyed token
  dsimp only
  by_cases word : kind = .identifier
  · rw [if_pos word]
    cases Keyword.lookup value with
    | none => rw [if_neg]; exact fun same => plain same
    | some keyword => rfl
  · rw [if_neg word, if_neg]
    exact fun same => plain same

theorem keyed_tokensFrom (start : Nat) (p : Position) (text : Bytes) : ∀ t ∈ tokensFrom start p text, t.Keyed := by
  induction text using tokenInduction generalizing start p with
  | nil =>
    intro t member
    rw [tokensFrom_nil] at member
    cases member
  | cons c rest ih =>
    intro t member
    rw [tokensFrom_cons] at member
    rcases List.mem_cons.mp member with rfl | later
    · exact keyed_token (lexeme_ne_keyword c rest) _ _ _
    · exact ih _ _ t later

end Lexer

theorem keyed_tokenize (text : Bytes) : ∀ t ∈ tokenize text, t.Keyed :=
  Lexer.keyed_tokensFrom 0 {} text

/-! ### What a pattern refuses -/

namespace Element

/-- Two patterns go together up to a place where the first one asks for a token that the second one
does not admit there; no statement ends at that place. -/
def part : List Element → List Element → Bool
  | wanted :: pattern, e :: rest =>
    !wanted.optional && !e.optional &&
      (e.apart wanted && !e.accepts (punctuated Byte.semicolon) ||
        wanted == e && !e.repeatable && part pattern rest)
  | _, _ => false

end Element

theorem Alignment.refused_of_part {pattern rest : List Element} {tokens : List Indexed}
    (keyed : ∀ t ∈ tokens, t.token.Keyed) (parts : Element.part pattern rest = true)
    (derived : tokens.map (·.token) ∈ patternLanguage rest) :
    ∃ before x behind, tokens = before ++ x :: behind ∧ x ∈ (of pattern (before ++ [x])).refused ∧
      x.token.terminal? ≠ some .semicolon := by
  induction pattern generalizing rest tokens with
  | nil => cases parts
  | cons wanted pattern ih =>
    cases rest with
    | nil => cases parts
    | cons e rest =>
      simp only [Element.part, Bool.and_eq_true, Bool.or_eq_true, Bool.not_eq_true'] at parts
      obtain ⟨⟨needed, present⟩, ends | ⟨⟨same, once⟩, later⟩⟩ := parts
      all_goals
        obtain ⟨x, tokens, rfl⟩ : ∃ x later, tokens = x :: later := by
          cases tokens with
          | nil => exact absurd (nil_mem_patternLanguage_cons.mp derived).1 (by simp [present])
          | cons x later => exact ⟨x, later, rfl⟩
        have first := keyed x List.mem_cons_self
        rw [List.map_cons, cons_mem_patternLanguage_cons] at derived
        simp only [present, Bool.false_eq_true, false_and, false_or] at derived
        obtain ⟨accepted, derived⟩ := derived
      · obtain ⟨apart, unending⟩ := ends
        have refuses := Element.not_accepts_of_apart first apart accepted
        refine ⟨[], x, tokens, rfl, ?_, ?_⟩
        · rw [List.nil_append, of, if_neg (by simp [refuses]), if_neg (by simp [needed])]
          exact List.mem_cons_self
        · intro terminal
          have closing : (Byte.semicolon, Terminal.semicolon) ∈ Element.closingMarks := List.mem_cons_self
          rw [Element.punctuated_of_closing first closing terminal e, unending] at accepted
          cases accepted
      · obtain rfl := eq_of_beq same
        simp only [once, Bool.false_eq_true, false_and, or_false] at derived
        obtain ⟨before, y, behind, rfl, refused, unending⟩ :=
          ih (fun t member => keyed t (List.mem_cons_of_mem x member)) later derived
        refine ⟨x :: before, y, behind, rfl, ?_, unending⟩
        rw [List.cons_append, of, if_pos accepted, if_neg (by simp [once])]
        exact refused

/-! ### The first candidate -/

namespace Rule

/-- The first rule of the table with the same leading word. -/
def foremost? (r : Rule) : Option Rule := table.find? fun q => Bytes.sameWord q.leading r.leading

theorem part_foremost : table.Pairwise fun q r => Bytes.sameWord q.leading r.leading = true →
    ∃ first ∈ r.foremost?, Element.part first.pattern r.pattern = true := by
  decide +kernel

theorem foremost_cases {r : Rule} (listed : r ∈ table) : r.foremost? = some r ∨
    ∃ first, r.foremost? = some first ∧ Element.part first.pattern r.pattern = true := by
  have itself : Bytes.sameWord r.leading r.leading = true := Bytes.sameWord_iff.mpr rfl
  cases foremost : r.foremost? with
  | none => exact absurd itself (List.find?_eq_none.mp foremost r listed)
  | some first =>
    obtain ⟨same, earlier, later, split, others⟩ := List.find?_eq_some_iff_append.mp foremost
    have ordered := part_foremost
    rw [split] at listed ordered
    rcases List.mem_append.mp listed with before | here
    · have differs := others r before
      rw [itself] at differs
      cases differs
    · rcases List.mem_cons.mp here with rfl | behind
      · exact Or.inl rfl
      · obtain ⟨_, ordered, _⟩ := List.pairwise_append.mp ordered
        obtain ⟨q, own, parts⟩ := (List.pairwise_cons.mp ordered).1 r behind same
        rw [foremost] at own
        obtain rfl := Option.some.inj own
        exact Or.inr ⟨first, rfl, parts⟩

theorem ends_table : ∀ r ∈ table, r.pattern.getLast? = some (Element.mark .semicolon) := by
  decide +kernel

/-- A derived row is what the rest of the pattern derives, with a semicolon behind it. -/
theorem exists_ending {r : Rule} {row : List Token} (listed : r ∈ table) (derived : row ∈ r.language) :
    ∃ body before last, r.pattern = body ++ [Element.mark .semicolon] ∧ row = before ++ [last] ∧
      before ∈ patternLanguage body ∧ last.terminal? = some .semicolon := by
  obtain ⟨body, ends⟩ := List.getLast?_eq_some_iff.mp (ends_table r listed)
  have product : r.language = patternLanguage body * (Element.mark .semicolon).single := by
    rw [language, ends, patternLanguage, List.map_append, List.prod_append]
    simp only [List.map_cons, List.map_nil, List.prod_singleton]
    rfl
  rw [product, Language.mem_mul] at derived
  obtain ⟨before, within, _, ⟨last, accepted, rfl⟩, rfl⟩ := derived
  refine ⟨body, before, last, ends, rfl, within, ?_⟩
  obtain ⟨admitted, _⟩ := Bool.and_eq_true_iff.mp accepted
  simp only [Element.mark, Slot.admits] at admitted
  split at admitted
  · cases admitted
  · rename_i found read
    rw [read, eq_of_beq admitted]

theorem last_of_derived {r : Rule} {row : List Token} {t : Token} (listed : r ∈ table)
    (derived : row ++ [t] ∈ r.language) : t.terminal? = some .semicolon := by
  obtain ⟨_, _, last, _, split, _, terminal⟩ := exists_ending listed derived
  obtain ⟨_, same⟩ := List.append_inj' split rfl
  rwa [List.singleton_inj.mp same]

theorem candidates_of_led {r : Rule} {t : Token} {rest : List Token} (nonempty : r.leading ≠ [])
    (spaceless : Byte.space ∉ Bytes.toUpper r.leading) (led : Bytes.sameWord t.value r.leading = true) :
    candidates (statementText (t :: rest)) = table.filter fun q => Bytes.sameWord q.leading r.leading := by
  have upper : Bytes.toUpper t.value = Bytes.toUpper r.leading := Bytes.sameWord_iff.mp led
  have first : (statementText (t :: rest)).takeWhile (· != Byte.space) = Bytes.toUpper r.leading := by
    rw [statementText, List.map_cons, upper]
    exact firstWord_joined (by simpa using nonempty) spaceless
  have inhabited : (Bytes.toUpper r.leading).isEmpty = false := by simpa using nonempty
  rw [candidates, first, inhabited, if_neg Bool.false_ne_true]
  refine List.filter_congr fun q _ => ?_
  rw [Bool.eq_iff_iff, Bytes.sameWord_iff, Bytes.sameWord_iff, Bytes.toUpper_toUpper]

end Rule

/-- What some candidate fits is judged by one that fits. -/
theorem validate_of_fits {tokens : List Token} {r : Rule}
    (candidate : r ∈ Rule.candidates (statementText (significantTokens tokens)))
    (fits : (Alignment.of r.pattern (significantIndexed tokens)).fits = true) :
    ∃ q ∈ Rule.candidates (statementText (significantTokens tokens)),
      (Alignment.of q.pattern (significantIndexed tokens)).fits = true ∧
        validate tokens = validateAgainst (significantIndexed tokens) q := by
  obtain ⟨first, foremost⟩ := Option.isSome_iff_exists.mp (List.isSome_head?.mpr (List.ne_nil_of_mem candidate))
  rw [validate_of_candidates foremost]
  cases found : (Rule.candidates (statementText (significantTokens tokens))).find? fun r =>
      (Alignment.of r.pattern (significantIndexed tokens)).fits with
  | none => exact absurd fits (List.find?_eq_none.mp found r candidate)
  | some q => exact ⟨q, List.mem_of_find?_eq_some found, by simpa using List.find?_some found, rfl⟩

theorem invalidTokens_of_fits {tokens : List Token} {r : Rule}
    (candidate : r ∈ Rule.candidates (statementText (significantTokens tokens)))
    (fits : (Alignment.of r.pattern (significantIndexed tokens)).fits = true) :
    (validate tokens).invalidTokens = [] := by
  obtain ⟨q, _, fits, report⟩ := validate_of_fits candidate fits
  rw [report, validateAgainst, ofAlignment_invalidTokens, Alignment.refused_of_fits fits]
  rfl

/-- What no rule fits is judged by the first candidate. -/
theorem validate_of_unfit {tokens : List Token} {first : Rule}
    (foremost : (Rule.candidates (statementText (significantTokens tokens))).head? = some first)
    (unfit : ∀ r ∈ Rule.candidates (statementText (significantTokens tokens)),
      (Alignment.of r.pattern (significantIndexed tokens)).fits = false) :
    validate tokens = validateAgainst (significantIndexed tokens) first := by
  have none : (Rule.candidates (statementText (significantTokens tokens))).find?
      (fun r => (Alignment.of r.pattern (significantIndexed tokens)).fits) = none := by
    apply List.find?_eq_none.mpr
    intro r member
    rw [unfit r member]
    exact Bool.false_ne_true
  rw [validate_of_candidates foremost, none]
  rfl

theorem invalidTokens_of_unfit {tokens : List Token} {first : Rule}
    (foremost : (Rule.candidates (statementText (significantTokens tokens))).head? = some first)
    (unfit : ∀ r ∈ Rule.candidates (statementText (significantTokens tokens)),
      (Alignment.of r.pattern (significantIndexed tokens)).fits = false) :
    (validate tokens).invalidTokens =
      (Alignment.of first.pattern (significantIndexed tokens)).refused.map (·.index) := by
  rw [validate_of_unfit foremost unfit]
  exact ofAlignment_invalidTokens _ _ _

/-- Only what the first candidate refuses is ever flagged. -/
theorem refused_of_flagged {tokens : List Token} {first : Rule} {i : Nat}
    (foremost : (Rule.candidates (statementText (significantTokens tokens))).head? = some first)
    (flagged : i ∈ (validate tokens).invalidTokens) :
    ∃ x ∈ (Alignment.of first.pattern (significantIndexed tokens)).refused, x.index = i := by
  by_cases fitting : ∃ r ∈ Rule.candidates (statementText (significantTokens tokens)),
      (Alignment.of r.pattern (significantIndexed tokens)).fits = true
  · obtain ⟨r, candidate, fits⟩ := fitting
    rw [invalidTokens_of_fits candidate fits] at flagged
    cases flagged
  · rw [invalidTokens_of_unfit foremost] at flagged
    · exact List.mem_map.mp flagged
    · intro r candidate
      exact Bool.eq_false_of_not_eq_true fun fits => fitting ⟨r, candidate, fits⟩

/-! ### Accepted statements -/

/-- What is known of an accepted statement and of the rule that it is reported to fit. -/
structure Accepted (tokens : List Token) (r : Rule) : Prop where
  keyed : ∀ t ∈ tokens, t.Keyed
  listed : r ∈ Rule.table
  derived : significantTokens tokens ∈ r.language

namespace Accepted

variable {tokens : List Token} {r : Rule}

theorem keyedIndexed (accepted : Accepted tokens r) : ∀ t ∈ significantIndexed tokens, t.token.Keyed := by
  intro t member
  have significant : t.token ∈ significantTokens tokens := by
    rw [← significantIndexed_tokens]
    exact List.mem_map_of_mem member
  exact accepted.keyed _ (List.mem_of_mem_filter significant)

theorem fits (accepted : Accepted tokens r) : (Alignment.of r.pattern (significantIndexed tokens)).fits = true := by
  rw [Alignment.fits_iff_mem_language accepted.keyedIndexed (absorbing_table r accepted.listed),
    significantIndexed_tokens]
  exact accepted.derived

/-- Every beginning of the statement that is not blank has the same candidates. -/
theorem candidates_take (accepted : Accepted tokens r) {n : Nat}
    (inhabited : significantTokens (tokens.take n) ≠ []) :
    Rule.candidates (statementText (significantTokens (tokens.take n))) =
      Rule.table.filter fun q => Bytes.sameWord q.leading r.leading := by
  obtain ⟨nonempty, spaceless, t, rest, whole, led⟩ :=
    Rule.leading_of_derived (Rule.startsWithWord_table r accepted.listed) accepted.derived
  have beginning : significantTokens (tokens.take n) <+: t :: rest := by
    rw [← whole, ← significantIndexed_tokens, ← significantIndexed_tokens]
    exact (significantIndexed_take tokens n).map _
  cases first : significantTokens (tokens.take n) with
  | nil => exact absurd first inhabited
  | cons u later =>
    rw [first] at beginning
    obtain ⟨rfl, _⟩ := List.cons_prefix_cons.mp beginning
    exact Rule.candidates_of_led nonempty spaceless led

/-- A statement of the first candidate is accepted from its first token to its last. -/
theorem isTokenValid_of_foremost (accepted : Accepted tokens r) (foremost : r.foremost? = some r) {i : Nat}
    (inside : i < tokens.length) : isTokenValid tokens[i] (tokens.take i) = true := by
  have extended : tokens.take i ++ [tokens[i]] = tokens.take (i + 1) := (List.take_succ_eq_append_getElem inside).symm
  have none : (validate (tokens.take (i + 1))).invalidTokens = [] := by
    by_cases blank : significantTokens (tokens.take (i + 1)) = []
    · rw [validate_eq_of_blank blank]
    have candidates := accepted.candidates_take blank
    have first : (Rule.candidates (statementText (significantTokens (tokens.take (i + 1))))).head? = some r := by
      rw [candidates, List.head?_filter]
      exact foremost
    obtain ⟨behind, split⟩ := significantIndexed_take tokens (i + 1)
    have whole := Alignment.refused_of_fits accepted.fits
    rw [← split] at whole
    apply List.eq_nil_iff_forall_not_mem.mpr
    intro index flagged
    obtain ⟨x, refused, _⟩ := refused_of_flagged first flagged
    rw [Alignment.refused_of_append whole] at refused
    cases refused
  rw [isTokenValid, extended, none]
  rfl

/-- A statement whose pattern parts from that of the first candidate is refused where they part. -/
theorem refused_of_part (accepted : Accepted tokens r) {q : Rule} (foremost : r.foremost? = some q)
    (parts : Element.part q.pattern r.pattern = true) :
    ∃ (i : Nat) (inside : i < tokens.length), isTokenValid tokens[i] (tokens.take i) = false := by
  have derived := accepted.derived
  rw [← significantIndexed_tokens] at derived
  obtain ⟨before, x, behind, split, refused, unending⟩ :=
    Alignment.refused_of_part accepted.keyedIndexed parts derived
  obtain ⟨inside, same, beginning, significant⟩ := mem_significantIndexed split
  have extended : tokens.take x.index ++ [tokens[x.index]] = tokens.take (x.index + 1) :=
    (List.take_succ_eq_append_getElem inside).symm
  have upTo : significantIndexed (tokens.take (x.index + 1)) = before ++ [x] := by
    rw [← extended, same, significantIndexed_concat, beginning, if_pos significant, List.length_take,
      Nat.min_eq_left (Nat.le_of_lt inside)]
  have texts : significantTokens (tokens.take (x.index + 1)) = before.map (·.token) ++ [x.token] := by
    rw [← significantIndexed_tokens, upTo, List.map_append]
    rfl
  have inhabited : significantTokens (tokens.take (x.index + 1)) ≠ [] := by
    rw [texts]
    exact List.append_ne_nil_of_right_ne_nil _ (List.cons_ne_nil _ _)
  have candidates := accepted.candidates_take inhabited
  have first : (Rule.candidates (statementText (significantTokens (tokens.take (x.index + 1))))).head? = some q := by
    rw [candidates, List.head?_filter]
    exact foremost
  -- No candidate fits up to here, since every statement ends with a semicolon.
  have unfit : ∀ other ∈ Rule.candidates (statementText (significantTokens (tokens.take (x.index + 1)))),
      (Alignment.of other.pattern (significantIndexed (tokens.take (x.index + 1)))).fits = false := by
    intro other candidate
    rw [candidates] at candidate
    have listed := List.mem_of_mem_filter candidate
    have keyed : ∀ t ∈ significantIndexed (tokens.take (x.index + 1)), t.token.Keyed := by
      intro t member
      exact accepted.keyedIndexed t ((significantIndexed_take tokens _).subset member)
    apply Bool.eq_false_of_not_eq_true
    intro fits
    rw [Alignment.fits_iff_mem_language keyed (absorbing_table other listed), significantIndexed_tokens, texts] at fits
    exact unending (Rule.last_of_derived listed fits)
  have invalid : x.index ∈ (validate (tokens.take (x.index + 1))).invalidTokens := by
    rw [invalidTokens_of_unfit first unfit, upTo]
    exact List.mem_map_of_mem refused
  refine ⟨x.index, inside, ?_⟩
  rw [isTokenValid, extended, List.length_take, Nat.min_eq_left (Nat.le_of_lt inside)]
  simpa using invalid

end Accepted

/-- An accepted statement is accepted token by token, each one behind those before it, exactly if no rule
before its own begins with the same word. -/
theorem accepted_token_by_token_iff (text : Bytes) (accepted : (validate (tokenize text)).valid = true) :
    (∀ (i : Nat) (inside : i < (tokenize text).length),
        isTokenValid (tokenize text)[i] ((tokenize text).take i) = true) ↔
      ∀ r ∈ (validate (tokenize text)).rule,
        Rule.table.find? (fun q => Bytes.sameWord q.leading r.leading) = some r := by
  have keyed := keyed_tokenize text
  by_cases blank : significantTokens (tokenize text) = []
  · rw [validate_eq_of_blank blank]
    refine iff_of_true ?_ nofun
    intro i inside
    have trivia : significantTokens ((tokenize text).take (i + 1)) = [] := by
      apply List.filter_eq_nil_iff.mpr
      intro t member
      exact List.filter_eq_nil_iff.mp blank t (List.mem_of_mem_take member)
    rw [isTokenValid, ← List.take_succ_eq_append_getElem inside, validate_eq_of_blank trivia]
    rfl
  · obtain ⟨earlier, r, later, table, rule, derived, _⟩ := (validate_valid_iff_derived _ keyed blank).2 accepted
    have listed : r ∈ Rule.table := table ▸ List.mem_append_right _ List.mem_cons_self
    have statement : Accepted (tokenize text) r := ⟨keyed, listed, derived⟩
    rw [rule]
    constructor
    · intro all q own
      obtain rfl := Option.some.inj own
      rcases Rule.foremost_cases listed with foremost | ⟨first, foremost, parts⟩
      · exact foremost
      · obtain ⟨i, inside, refused⟩ := statement.refused_of_part foremost parts
        rw [all i inside] at refused
        cases refused
    · intro first i inside
      exact statement.isTokenValid_of_foremost (first r rfl) inside

theorem star_refused :
    (validate (tokenize (ascii "SELECT * FROM a;"))).valid = true ∧
      ∃ (i : Nat) (inside : i < (tokenize (ascii "SELECT * FROM a;")).length),
        isTokenValid (tokenize (ascii "SELECT * FROM a;"))[i] ((tokenize (ascii "SELECT * FROM a;")).take i) =
          false := by
  have accepted : (validate (tokenize (ascii "SELECT * FROM a;"))).valid = true := by decide +kernel
  refine ⟨accepted, ?_⟩
  by_contra none
  have all := (accepted_token_by_token_iff (ascii "SELECT * FROM a;") accepted).mp fun i inside =>
    Bool.eq_true_of_not_eq_false fun refused => none ⟨i, inside, refused⟩
  exact absurd all (by decide +kernel)

end QueryService
