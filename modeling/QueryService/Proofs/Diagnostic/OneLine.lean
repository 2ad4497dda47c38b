import QueryService.Diagnostic.Analysis
import QueryService.Proofs.Grammar.Consistency
import QueryService.Proofs.Spelling.Suggestion
import QueryService.Proofs.Text.Unbroken

/-!
# Diagnostics of one line

The texts of a diagnostic are made of phrases, of words of the language and of the texts of tokens. So if no
significant token breaks a line, neither does anything that is said of the tokens (`oneLine_analyze`).
-/

namespace QueryService

/-- No text of the diagnostic breaks a line, apart from the comment that it shows to lack its end. -/
structure Diagnostic.OneLine (d : Diagnostic) : Prop where
  message : Unbroken d.message
  suggestion : Unbroken d.suggestion
  source : d.fault ≠ .unterminatedComment → Unbroken d.source

/-- All these diagnostics are of one line. -/
def OneLines (diagnostics : List Diagnostic) : Prop := ∀ d ∈ diagnostics, d.OneLine

variable {t first : Token} {tokens rest : List Token} {report : Report} {fault : Fault} {d : Diagnostic}
  {value message source suggestion : Bytes} {diagnostics more : List Diagnostic}

namespace Diagnostic.OneLine

theorem on (quoted : Unbroken t.value) (said : Unbroken message) (advised : Unbroken suggestion) :
    (Diagnostic.on t fault message suggestion).OneLine :=
  ⟨said, advised, fun _ => quoted⟩

theorem after (said : Unbroken message) (quoted : Unbroken source) (advised : Unbroken suggestion) :
    (Diagnostic.after t fault message source suggestion).OneLine :=
  ⟨said, advised, fun _ => quoted⟩

theorem shiftLines (oneLine : d.OneLine) (lines : Nat) : (d.shiftLines lines).OneLine :=
  ⟨oneLine.message, oneLine.suggestion, oneLine.source⟩

end Diagnostic.OneLine

namespace OneLines

theorem nil : OneLines [] := List.forall_mem_nil _

theorem single (oneLine : d.OneLine) : OneLines [d] := List.forall_mem_singleton.mpr oneLine

theorem append (earlier : OneLines diagnostics) (later : OneLines more) : OneLines (diagnostics ++ more) :=
  List.forall_mem_append.mpr ⟨earlier, later⟩

theorem ite {p : Prop} [Decidable p] (first : OneLines diagnostics) (second : OneLines more) :
    OneLines (if p then diagnostics else more) := by
  split
  · exact first
  · exact second

theorem shiftLines (oneLines : OneLines diagnostics) (lines : Nat) :
    OneLines (diagnostics.map (.shiftLines lines)) :=
  List.forall_mem_map.mpr fun d member => (oneLines d member).shiftLines lines

end OneLines

/-! ### Words of the language -/

/-- The words that the checker puts into its messages are on one line. -/
theorem unbroken_words : (∀ starter ∈ Rule.starters, Unbroken starter) ∧
    (∀ keyword ∈ Keyword.table.toList, Unbroken keyword.lexeme) ∧
      ∀ r ∈ Rule.table, ∀ e ∈ r.pattern, ∀ expected ∈ e.expectation, Unbroken expected := by
  decide +kernel

theorem unbroken_starters : ∀ starter ∈ Rule.starters, Unbroken starter := unbroken_words.1

theorem unbroken_expected (tokens : List Token) : ∀ expected ∈ (validate tokens).expected, Unbroken expected := by
  have aligned {r : Rule} (candidate : r ∈ Rule.candidates (statementText (significantTokens tokens))) :
      ∀ expected ∈ (validateAgainst (significantIndexed tokens) r).expected, Unbroken expected := by
    have known := unbroken_words.2.2 r (Rule.mem_table_of_candidate candidate)
    have suffix := Alignment.remaining_suffix r.pattern (significantIndexed tokens)
    rw [validateAgainst, ofAlignment_expected]
    cases next : (Alignment.of r.pattern (significantIndexed tokens)).remaining.head? with
    | none => exact List.forall_mem_nil _
    | some e => exact known e (suffix.subset (List.mem_of_head? next))
  have outcome := validate_outcome tokens
  generalize validate tokens = report at outcome
  cases outcome with
  | blank => exact List.forall_mem_nil _
  | unrecognized => exact unbroken_starters
  | fitted _ candidate _ => exact aligned candidate
  | unfitted _ foremost _ => exact aligned (List.mem_of_head? foremost)

/-- A text between two phrases that are written out. -/
theorem unbroken_quoted {before behind : List Char} (opening : before.all (fun c => !Byte.isBreak c.toUInt8) = true)
    (quoted : Unbroken value) (closing : behind.all (fun c => !Byte.isBreak c.toUInt8) = true) :
    Unbroken (ascii (String.ofList before) ++ value ++ ascii (String.ofList behind)) :=
  unbroken_append (unbroken_append (unbroken_ascii opening) quoted) (unbroken_ascii closing)

theorem unbroken_statementText (values : ∀ t ∈ tokens, Unbroken t.value) : Unbroken (statementText tokens) := by
  refine unbroken_joined (by decide) fun item member => ?_
  obtain ⟨t, inside, rfl⟩ := List.mem_map.mp member
  exact unbroken_toUpper (values t inside)

/-! ### Single tokens -/

theorem Literal.oneLine_diagnose (quoted : t.isSignificant = true → Unbroken t.value) (found : diagnose t = some d) :
    d.OneLine := by
  have significant {kind : TokenKind} (same : t.kind = kind) (known : kind.isSignificant = true) :
      Unbroken t.value := quoted (by rw [Token.isSignificant, same, known])
  unfold diagnose at found
  split at found <;> rename_i kind
  · obtain rfl := Option.some.inj found
    have quoted := significant kind rfl
    exact .on quoted (unbroken_quoted rfl quoted rfl) (unbroken_ascii rfl)
  · split at found
    · obtain rfl := Option.some.inj found
      exact .on (significant kind rfl) (unbroken_ascii rfl) (unbroken_ascii rfl)
    · cases found
  · split at found
    · obtain rfl := Option.some.inj found
      have quoted := significant kind rfl
      exact .on quoted (unbroken_quoted rfl quoted rfl) (unbroken_ascii rfl)
    · cases found
  · split at found
    · obtain rfl := Option.some.inj found
      have said : Unbroken (ascii "Unterminated block comment. Missing closing */.") := unbroken_ascii rfl
      have advised : Unbroken (ascii "Add */ to close the comment") := unbroken_ascii rfl
      exact ⟨said, advised, fun other => absurd rfl other⟩
    · cases found
  · cases found

theorem oneLine_literalDiagnostics (quoted : ∀ t ∈ tokens, t.isSignificant = true → Unbroken t.value) :
    OneLines (literalDiagnostics tokens) := by
  intro d member
  obtain ⟨t, inside, found⟩ := List.mem_filterMap.mp member
  exact Literal.oneLine_diagnose (quoted t inside) found

/-! ### The shape of a statement -/

namespace Shape

variable (quoted : ∀ t ∈ first :: rest, Unbroken t.value)
include quoted

theorem oneLine_select : OneLines (select first rest) := by
  refine .append (.append ?sequence (.ite (.single ?target) .nil)) (.ite (.single ?source) .nil)
  case sequence =>
    intro d member
    obtain ⟨t, misused, rfl⟩ := List.mem_map.mp member
    have quoted := quoted t (List.mem_of_find?_eq_some (Option.mem_toList.mp misused))
    exact .on quoted (unbroken_quoted rfl quoted rfl) (unbroken_ascii rfl)
  case target => exact .after (unbroken_ascii rfl) (unbroken_ascii rfl) (unbroken_ascii rfl)
  case source => exact .after (unbroken_ascii rfl) (unbroken_statementText quoted) (unbroken_ascii rfl)

theorem oneLine_create : OneLines (create first rest) := by
  cases rest with
  | nil => exact .single (.after (unbroken_ascii rfl) (unbroken_ascii rfl) (unbroken_ascii rfl))
  | cons object more =>
    have quoted := quoted object (List.mem_cons_of_mem first List.mem_cons_self)
    exact .ite .nil (.single (.on quoted (unbroken_quoted rfl quoted rfl) (unbroken_ascii rfl)))

theorem oneLine_command : OneLines (command first) := by
  have quoted := quoted first List.mem_cons_self
  refine .ite .nil (.single (.on quoted (unbroken_quoted rfl quoted rfl) ?_))
  split <;> rename_i found
  · have starter := unbroken_starters _ (List.mem_of_find?_eq_some found)
    exact unbroken_quoted rfl starter rfl
  · exact unbroken_append (unbroken_ascii rfl) (unbroken_joined (unbroken_ascii rfl) unbroken_starters)

theorem oneLine_diagnose : OneLines (diagnose first rest) := by
  refine .ite (oneLine_select quoted) (.ite ?insert (.ite ?update (.ite ?delete (.ite ?add
    (.ite (oneLine_create quoted) (oneLine_command quoted))))))
  case insert => exact .ite .nil (.single (.after (unbroken_ascii rfl) (unbroken_ascii rfl) (unbroken_ascii rfl)))
  case update =>
    refine .ite .nil (.ite (.ite .nil (.single ?_)) (.ite .nil (.single ?_)))
    · exact .after (unbroken_ascii rfl) (unbroken_ascii rfl) (unbroken_ascii rfl)
    · exact .after (unbroken_ascii rfl) (unbroken_ascii rfl) (unbroken_ascii rfl)
  case delete => exact .ite .nil (.single (.after (unbroken_ascii rfl) (unbroken_ascii rfl) (unbroken_ascii rfl)))
  case add =>
    exact .ite .nil (.single (.after (unbroken_ascii rfl) (unbroken_statementText quoted) (unbroken_ascii rfl)))

end Shape

/-! ### Reports -/

namespace Analysis

theorem oneLine_incompleteStatement (quoted : ∀ t ∈ tokens, Unbroken t.value)
    (known : ∀ expected ∈ report.expected, Unbroken expected) (last : Token) :
    OneLines (incompleteStatement tokens last report) := by
  have expected := unbroken_joined (unbroken_ascii rfl : Unbroken (ascii " or ")) known
  refine .ite (.single (.after (unbroken_quoted rfl expected rfl) (unbroken_statementText quoted) ?_)) .nil
  exact unbroken_append (unbroken_ascii rfl) expected

theorem unbroken_remedy (t : Token) : Unbroken (remedy t) := by
  unfold remedy
  dsimp only
  split <;> rename_i keyword found
  · split at found
    · have listed := Keyword.mem_table_of_suggest found
      exact unbroken_quoted rfl (unbroken_words.2.1 keyword listed) rfl
    · cases found
  · exact unbroken_ascii rfl

theorem oneLine_unexpectedTokens
    (quoted : ∀ i ∈ report.invalidTokens, ∀ t, tokens[i]? = some t → Unbroken t.value) :
    OneLines (unexpectedTokens tokens report) := by
  intro d member
  obtain ⟨index, listed, found⟩ := List.mem_filterMap.mp member
  obtain ⟨t, there, rfl⟩ := Option.map_eq_some_iff.mp found
  have quoted := quoted index listed t there
  exact .on quoted (unbroken_quoted rfl quoted rfl) (unbroken_remedy t)

theorem oneLine_ofReport (quoted : ∀ t ∈ tokens, t.isSignificant = true → Unbroken t.value) :
    OneLines (ofReport tokens (validate tokens)) := by
  have significant : ∀ t ∈ significantTokens tokens, Unbroken t.value := by
    intro t member
    rw [significantTokens, List.mem_filter] at member
    exact quoted t member.1 member.2
  have flagged : ∀ i ∈ (validate tokens).invalidTokens, ∀ t, tokens[i]? = some t → Unbroken t.value := by
    intro i listed t there
    obtain ⟨t', there', known⟩ := (validate_consistent tokens).flagged i listed
    rw [there] at there'
    obtain rfl := Option.some.inj there'
    exact quoted t (List.mem_of_getElem? there) known
  unfold ofReport
  refine .ite .nil ?_
  split <;> rename_i statement
  · exact .single ⟨unbroken_ascii rfl, unbroken_ascii rfl, fun _ => unbroken_nil⟩
  · rename_i first rest
    rw [statement] at significant
    dsimp only
    refine .ite (.single ?fallback) (.append (.append (Shape.oneLine_diagnose significant) ?ending) ?misplaced)
    case fallback =>
      exact .on (significant first List.mem_cons_self) (unbroken_ascii rfl) (unbroken_ascii rfl)
    case ending => exact oneLine_incompleteStatement significant (unbroken_expected tokens) _
    case misplaced => exact oneLine_unexpectedTokens flagged

end Analysis

/-- What is said of tokens breaks no line if no significant one among them does. -/
theorem oneLine_analyze (quoted : ∀ t ∈ tokens, t.isSignificant = true → Unbroken t.value) (firstLine : Nat) :
    OneLines (analyze tokens (validate tokens) firstLine) :=
  .append ((oneLine_literalDiagnostics quoted).shiftLines firstLine)
    ((Analysis.oneLine_ofReport quoted).shiftLines firstLine)

end QueryService
