import QueryService.Proofs.Grammar.Continuation
import QueryService.Proofs.Statement.Segmentation

/-!
# Statements that end themselves

Every pattern ends with a semicolon and admits none before, in no body however long. So an accepted
statement has one semicolon, at its end, and whatever comes behind it is refused: acceptance is
prefix-free (`accepted_prefix_free`).
-/

namespace QueryService

namespace Token

theorem isSemicolon_iff {t : Token} : t.isSemicolon = true ↔ t.terminal? = some .semicolon := by
  rw [isSemicolon, Bool.and_eq_true, beq_iff_eq, beq_iff_eq]
  constructor
  · rintro ⟨kind, value⟩
    simp only [terminal?, symbolTerminal?, kind, value]
    decide
  · exact Element.token_of_closing List.mem_cons_self

/-- What a token is, wherever it stands. -/
def shape (t : Token) : TokenKind × Bytes := (t.kind, t.value)

end Token

/-! ### Rows with one semicolon -/

/-- The last token is a semicolon, and it is the only one. -/
structure Ended (row : List Token) : Prop where
  last : row.getLast?.any Token.isSemicolon = true
  single : row.countP Token.isSemicolon = 1

namespace Ended

variable {row later : List Token}

theorem of_shapes {other : List Token} (shapes : row.map Token.shape = other.map Token.shape) (ended : Ended row) :
    Ended other := by
  have marks : row.map Token.isSemicolon = other.map Token.isSemicolon := by
    have read := congrArg (List.map fun s : TokenKind × Bytes => s.1 == .punctuation && s.2 == [Byte.semicolon]) shapes
    rwa [List.map_map, List.map_map] at read
  have counted (tokens : List Token) : tokens.countP Token.isSemicolon = (tokens.map Token.isSemicolon).countP id := by
    rw [List.countP_map]
    rfl
  have ends (tokens : List Token) :
      tokens.getLast?.any Token.isSemicolon = (tokens.map Token.isSemicolon).getLast?.any id := by
    rw [List.getLast?_map, Option.any_map]
    rfl
  refine ⟨?_, ?_⟩
  · rw [ends, ← marks, ← ends, ended.last]
  · rw [counted, ← marks, ← counted, ended.single]

/-- Nothing stands behind the end of a row that ends with its only semicolon. -/
theorem eq_nil_of_append (ended : Ended row) (longer : Ended (row ++ later)) : later = [] := by
  by_contra inhabited
  obtain ⟨before, last, rfl⟩ := (List.eq_nil_or_concat' later).resolve_left inhabited
  have final := longer.last
  rw [← List.append_assoc, List.getLast?_concat, Option.any_some] at final
  have twice := longer.single
  rw [List.countP_append, List.countP_append, ended.single, List.countP_singleton, if_pos final] at twice
  omega

theorem eq_of_prefix {other : List Token} (ended : Ended row) (longer : Ended other)
    (begins : row.map Token.shape <+: other.map Token.shape) : row.map Token.shape = other.map Token.shape := by
  obtain ⟨behind, split⟩ := begins
  obtain ⟨front, rest, rfl, shapes, rfl⟩ := List.map_eq_append_iff.mp split.symm
  obtain rfl := (of_shapes shapes.symm ended).eq_nil_of_append longer
  rw [List.append_nil, shapes]

end Ended

/-! ### Derived rows -/

theorem accepted_of_derived {pattern : List Element} {row : List Token} (derived : row ∈ patternLanguage pattern) :
    ∀ t ∈ row, ∃ e ∈ pattern, e.accepts t = true := by
  induction pattern generalizing row with
  | nil => simp [mem_patternLanguage_nil.mp derived]
  | cons e pattern ih =>
    -- The element may take any number of tokens, so the row goes down one by one in its place.
    induction row generalizing e with
    | nil => nofun
    | cons u row more =>
      have later {tokens : List Token} (member : tokens ∈ patternLanguage pattern) {t : Token} (found : t ∈ tokens) :
          ∃ f ∈ e :: pattern, f.accepts t = true := by
        obtain ⟨f, listed, accepted⟩ := ih member t found
        exact ⟨f, List.mem_cons_of_mem e listed, accepted⟩
      intro t found
      rcases cons_mem_patternLanguage_cons.mp derived with ⟨_, absent⟩ | ⟨accepted, present⟩
      · exact later absent found
      rcases List.mem_cons.mp found with rfl | behind
      · exact ⟨e, List.mem_cons_self, accepted⟩
      rcases present with once | ⟨_, again⟩
      · exact later once behind
      · obtain ⟨f, listed, accepts⟩ := more e.needed again t behind
        rcases List.mem_cons.mp listed with rfl | listed
        · exact ⟨e, List.mem_cons_self, accepts⟩
        · exact ⟨f, List.mem_cons_of_mem e listed, accepts⟩

theorem Element.slot_of_semicolon {e : Element} {t : Token} (accepted : e.accepts t = true)
    (semicolon : t.isSemicolon = true) : e.slot = .terminal .semicolon := by
  have admitted := (Bool.and_eq_true_iff.mp accepted).1
  rw [Slot.admits, Token.isSemicolon_iff.mp semicolon] at admitted
  cases slot : e.slot with
  | terminal wanted =>
    rw [slot] at admitted
    rw [eq_of_beq admitted]
  | name | expression | record =>
    rw [slot] at admitted
    cases admitted

namespace Rule

/-- No element but the last one admits a semicolon. -/
theorem closed_table : ∀ r ∈ table, ∀ e ∈ r.pattern.dropLast, e.slot ≠ .terminal .semicolon := by
  decide +kernel

theorem ended_of_derived {r : Rule} {row : List Token} (listed : r ∈ table) (derived : row ∈ r.language) :
    Ended row := by
  obtain ⟨body, before, last, pattern, rfl, within, terminal⟩ := exists_ending listed derived
  have final := Token.isSemicolon_iff.mpr terminal
  have closed := closed_table r listed
  rw [pattern, List.dropLast_concat] at closed
  have none : before.countP Token.isSemicolon = 0 := by
    rw [List.countP_eq_zero]
    intro t member semicolon
    obtain ⟨e, element, accepted⟩ := accepted_of_derived within t member
    exact closed e element (Element.slot_of_semicolon accepted semicolon)
  refine ⟨?_, ?_⟩
  · rw [List.getLast?_concat, Option.any_some, final]
  · rw [List.countP_append, none, List.countP_singleton, if_pos final]

end Rule

/-! ### Accepted statements -/

theorem ended_of_valid {tokens : List Token} (significant : significantTokens tokens ≠ [])
    (valid : (validate tokens).valid = true) : Ended (significantTokens tokens) := by
  rw [(validate_of_find? significant rfl).1, List.find?_isSome] at valid
  obtain ⟨r, candidate, fits⟩ := valid
  have derived := Alignment.mem_language_of_fits fits
  rw [significantIndexed_tokens] at derived
  exact Rule.ended_of_derived (Rule.mem_table_of_candidate candidate) derived

theorem significant_of_matched {tokens : List Token} (matched : (validate tokens).rule ≠ none) :
    significantTokens tokens ≠ [] := by
  intro blank
  rw [validate_eq_of_blank blank] at matched
  exact matched rfl

/-- Acceptance by a rule is prefix-free. -/
theorem accepted_prefix_free {tokens : List Token} (valid : (validate tokens).valid = true)
    (matched : (validate tokens).rule ≠ none) :
    (significantTokens tokens).countP Token.isSemicolon = 1 ∧
    (significantTokens tokens).getLast?.any Token.isSemicolon = true ∧
    (∀ more, significantTokens more ≠ [] → (validate (tokens ++ more)).valid = false) ∧
    (∀ other, (validate other).valid = true → (validate other).rule ≠ none →
      (significantTokens tokens).map Token.shape <+: (significantTokens other).map Token.shape →
      (significantTokens tokens).map Token.shape = (significantTokens other).map Token.shape) ∧
    (∀ other, (validate other).valid = true → (validate other).rule ≠ none →
      (validate (tokens ++ other)).valid = false) := by
  have ended := ended_of_valid (significant_of_matched matched) valid
  have refused (more : List Token) (significant : significantTokens more ≠ []) :
      (validate (tokens ++ more)).valid = false := by
    have split : significantTokens (tokens ++ more) = significantTokens tokens ++ significantTokens more :=
      List.filter_append ..
    by_contra accepted
    have longer := ended_of_valid (by simp [split, significant]) (Bool.eq_true_of_not_eq_false accepted)
    rw [split] at longer
    exact significant (ended.eq_nil_of_append longer)
  refine ⟨ended.single, ended.last, refused, fun other valid' matched' begins => ?_, fun other _ matched' => ?_⟩
  · exact ended.eq_of_prefix (ended_of_valid (significant_of_matched matched') valid') begins
  · exact refused other (significant_of_matched matched')

/-- Semicolons in a string and a comment end nothing, and the statement is not gone on with. -/
theorem attached_statement_closed :
    let tokens := tokenize (ascii "ATTACH a, b = 'x;y' /* ; */;")
    let spaced := tokenize (ascii "ATTACH a , b='x;y';--")
    (validate tokens).valid = true ∧ (validate tokens).rule ≠ none ∧
      (significantTokens tokens).countP Token.isSemicolon = 1 ∧
      (significantTokens tokens).getLast?.any Token.isSemicolon = true ∧
      (validate (tokens ++ tokenize (ascii " x"))).valid = false ∧
      (significantTokens tokens).map Token.shape = (significantTokens spaced).map Token.shape ∧
      (validate (tokens ++ spaced)).valid = false := by
  intro tokens spaced
  have valid : (validate tokens).valid = true := by decide +kernel
  have matched : (validate tokens).rule ≠ none := by decide +kernel
  have valid' : (validate spaced).valid = true := by decide +kernel
  have matched' : (validate spaced).rule ≠ none := by decide +kernel
  have begins : (significantTokens tokens).map Token.shape <+: (significantTokens spaced).map Token.shape := by
    decide +kernel
  obtain ⟨single, last, longer, shorter, joined⟩ := accepted_prefix_free valid matched
  exact ⟨valid, matched, single, last, longer _ (by decide +kernel), shorter spaced valid' matched' begins,
    joined spaced valid' matched'⟩

end QueryService
