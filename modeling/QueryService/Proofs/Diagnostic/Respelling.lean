import QueryService.Diagnostic.Analysis
import QueryService.Proofs.Grammar.Respelling
import QueryService.Proofs.Token.Case

/-!
# Diagnostics of tokens that are spelled or placed otherwise

Analysis finds the same faults in tokens that a map respells, at the mapped tokens. What is looked at in a
diagnostic is left open: two views of diagnostics that agree on those of single tokens agree on those of
whole statements (`literalDiagnostics_map`, `Analysis.ofReport_map`).
-/

namespace QueryService

variable {β : Type} {f : Token → Token} {view seen : Diagnostic → β}

/-- What one view shows of a diagnostic on a mapped token is what another shows of it on the token itself.
A message may quote the token. -/
structure Agrees (f : Token → Token) (view seen : Diagnostic → β) : Prop extends Respells f where
  on : ∀ t fault (message : Bytes → Bytes) suggestion,
    view (.on (f t) fault (message (f t).value) suggestion) = seen (.on t fault (message t.value) suggestion)
  opening : ∀ t fault message suggestion,
    view { Diagnostic.on (f t) fault message suggestion with length := 2 } =
      seen { Diagnostic.on t fault message suggestion with length := 2 }
  after : ∀ t fault message source suggestion,
    view (.after (f t) fault message source suggestion) = seen (.after t fault message source suggestion)

theorem Respells.read {γ : Type} (respells : Respells f) {p : Bytes → γ}
    (caseless : ∀ text, p (Bytes.toUpper text) = p text) (t : Token) : p (f t).value = p t.value := by
  rw [← caseless, respells.text, caseless]

/-! ### Texts of literals -/

namespace Literal

theorem isUnterminatedString_toUpper (text : Bytes) :
    isUnterminatedString (Bytes.toUpper text) = isUnterminatedString text := by
  rcases text with _ | ⟨quote, _ | ⟨next, rest⟩⟩
  · rfl
  · rfl
  · rw [Bytes.toUpper_cons, Bytes.toUpper_cons, isUnterminatedString, isUnterminatedString, Byte.caseless_isQuote]
    cases opens : Byte.isQuote quote with
    | false => rfl
    | true =>
      have plain := Byte.plain_of_isQuote quote opens
      have escapes : Byte.Caseless (· == Byte.backslash) := Byte.caseless_beq (by decide)
      have last : ((Bytes.toUpper (next :: rest)).getLast? != some quote) = ((next :: rest).getLast? != some quote) := by
        rw [Bytes.toUpper, List.getLast?_map]
        cases (next :: rest).getLast? with
        | none => rfl
        | some c => exact congrArg (!·) (Byte.caseless_beq (plain) c)
      have before : (Bytes.toUpper (next :: rest)).dropLast.reverse = Bytes.toUpper (next :: rest).dropLast.reverse := by
        rw [Bytes.toUpper, Bytes.toUpper, List.map_reverse, List.map_dropLast]
      rw [Byte.toUpper_of_not_letter (plain), ← Bytes.toUpper_cons, last, before, Bytes.run_toUpper escapes]

theorem afterDigits?_toUpper (text : Bytes) :
    afterDigits? (Bytes.toUpper text) = (afterDigits? text).map Bytes.toUpper := by
  rw [afterDigits?, afterDigits?, Lexer.nextIs_toUpper Byte.caseless_isDigit,
    Bytes.dropWhile_toUpper Byte.caseless_isDigit]
  split <;> rfl

theorem afterFraction?_toUpper (text : Bytes) :
    afterFraction? (Bytes.toUpper text) = (afterFraction? text).map Bytes.toUpper := by
  fun_cases afterFraction? text with
  | case1 rest => exact afterDigits?_toUpper rest
  | case2 text other =>
    rw [afterFraction?]
    · rfl
    · intro later dot
      cases text with
      | nil => cases dot
      | cons c rest =>
        rw [Bytes.toUpper_cons, List.cons.injEq, Byte.toUpper_eq_iff (by decide)] at dot
        exact other rest (by rw [dot.1])

theorem afterExponent?_toUpper (text : Bytes) :
    afterExponent? (Bytes.toUpper text) = (afterExponent? text).map Bytes.toUpper := by
  cases text with
  | nil => rfl
  | cons mark rest =>
    rw [Bytes.toUpper_cons, afterExponent?, afterExponent?, Byte.caseless_isExponentMark,
      Lexer.nextIs_toUpper Byte.caseless_isSign, Lexer.tail_toUpper, afterDigits?_toUpper, afterDigits?_toUpper]
    split
    · rfl
    · split <;> rfl

theorem isInvalidNumber_toUpper (text : Bytes) : isInvalidNumber (Bytes.toUpper text) = isInvalidNumber text := by
  have read : (afterDigits? (Bytes.toUpper text) >>= afterFraction? >>= afterExponent?) =
      (afterDigits? text >>= afterFraction? >>= afterExponent?).map Bytes.toUpper := by
    rw [afterDigits?_toUpper]
    cases afterDigits? text with
    | none => rfl
    | some whole =>
      show (afterFraction? (Bytes.toUpper whole)).bind afterExponent? =
        ((afterFraction? whole).bind afterExponent?).map Bytes.toUpper
      rw [afterFraction?_toUpper]
      cases afterFraction? whole with
      | none => rfl
      | some fractional => exact afterExponent?_toUpper fractional
  rw [isInvalidNumber, isInvalidNumber, read]
  rcases (afterDigits? text >>= afterFraction? >>= afterExponent?) with _ | ⟨_ | ⟨c, rest⟩⟩ <;> rfl

theorem isUnterminatedComment_toUpper (text : Bytes) :
    isUnterminatedComment (Bytes.toUpper text) = isUnterminatedComment text := by
  have opens : (ascii "/*").isPrefixOf (Bytes.toUpper text) = (ascii "/*").isPrefixOf text := by
    rw [Bool.eq_iff_iff, List.isPrefixOf_iff_prefix, List.isPrefixOf_iff_prefix, List.prefix_iff_eq_take,
      List.prefix_iff_eq_take, Bytes.take_toUpper, eq_comm, Bytes.toUpper_eq_iff (by decide +kernel), eq_comm]
  have closes : (ascii "*/").isSuffixOf (Bytes.toUpper text) = (ascii "*/").isSuffixOf text := by
    rw [Bool.eq_iff_iff, List.isSuffixOf_iff_suffix, List.isSuffixOf_iff_suffix, List.suffix_iff_eq_drop,
      List.suffix_iff_eq_drop, Bytes.drop_toUpper, Bytes.length_toUpper, eq_comm,
      Bytes.toUpper_eq_iff (by decide +kernel), eq_comm]
  rw [isUnterminatedComment, isUnterminatedComment, opens, closes, Bytes.length_toUpper]

end Literal

theorem Keyword.suggest_toUpper (word : Bytes) : suggest (Bytes.toUpper word) = suggest word := by
  rw [suggest, suggest, Bytes.length_toUpper, Bytes.toUpper_toUpper]

namespace Shape

theorem mentions_map (respells : Respells f) (tokens : List Token) (word : String) :
    mentions (tokens.map f) word = mentions tokens word := by
  rw [mentions, mentions, List.any_map]
  exact congrArg tokens.any (funext fun t => respells.sameWord t (ascii word))

theorem secondIs_map (respells : Respells f) (rest : List Token) (word : String) :
    secondIs (rest.map f) word = secondIs rest word := by
  cases rest with
  | nil => rfl
  | cons t rest => exact respells.sameWord t (ascii word)

theorem lastOf_map (first : Token) (rest : List Token) : lastOf (f first) (rest.map f) = f (lastOf first rest) := by
  rw [lastOf, lastOf, List.getLastD_eq_getLast?, List.getLastD_eq_getLast?, List.getLast?_map]
  cases rest.getLast? <;> rfl

end Shape

section Agreement

variable (agrees : Agrees f view seen)
include agrees

theorem literalDiagnostics_map (tokens : List Token) :
    (literalDiagnostics (tokens.map f)).map view = (literalDiagnostics tokens).map seen := by
  have single (t : Token) : (Literal.diagnose (f t)).map view = (Literal.diagnose t).map seen := by
    unfold Literal.diagnose
    rw [agrees.kind, agrees.read Literal.isUnterminatedString_toUpper, agrees.read Literal.isInvalidNumber_toUpper,
      agrees.read Literal.isUnterminatedComment_toUpper]
    cases t.kind with
    | unknown => exact congrArg some (agrees.on t _ (fun value => ascii "Invalid token \"" ++ value ++ _) _)
    | string =>
      cases Literal.isUnterminatedString t.value with
      | false => rfl
      | true => exact congrArg some (agrees.on t _ (fun _ => _) _)
    | number =>
      cases Literal.isInvalidNumber t.value with
      | false => rfl
      | true => exact congrArg some (agrees.on t _ (fun value => ascii "Invalid number format \"" ++ value ++ _) _)
    | comment =>
      cases Literal.isUnterminatedComment t.value with
      | false => rfl
      | true => exact congrArg some (agrees.opening t _ _ _)
    | _ => rfl
  rw [literalDiagnostics, literalDiagnostics, List.filterMap_map, List.map_filterMap, List.map_filterMap]
  exact congrArg (List.filterMap · tokens) (funext single)

/-! ### Shapes -/

namespace Shape

theorem select_map (first : Token) (rest : List Token) :
    (select (f first) (rest.map f)).map view = (select first rest).map seen := by
  have misused : ((first :: rest).map f).find?
        (fun t => Bytes.sameWord t.value (ascii "ADD") || Bytes.sameWord t.value (ascii "SET")) =
      ((first :: rest).find?
        fun t => Bytes.sameWord t.value (ascii "ADD") || Bytes.sameWord t.value (ascii "SET")).map f := by
    rw [List.find?_map]
    refine congrArg (Option.map f) (congrArg (List.find? · (first :: rest)) (funext fun t => ?_))
    rw [Function.comp_apply, agrees.sameWord, agrees.sameWord]
  unfold select
  dsimp only
  rw [← List.map_cons, misused, mentions_map agrees.toRespells, secondIs_map agrees.toRespells, lastOf_map,
    statementText_map agrees.toRespells, List.isEmpty_map, List.length_map, List.map_append, List.map_append,
    List.map_append, List.map_append]
  congr 1
  · congr 1
    · cases List.find? _ (first :: rest) with
      | none => rfl
      | some t =>
        exact congrArg ([·]) (agrees.on t .selectInvalidSequence (fun value => ascii "\"" ++ value ++
          ascii "\" is not valid in a SELECT statement. Expected DOCUMENTS, *, or field names.") _)
    · split
      · exact congrArg ([·]) (agrees.after first _ _ _ _)
      · rfl
  · split
    · exact congrArg ([·]) (agrees.after (lastOf first rest) _ _ _ _)
    · rfl

theorem insert_map (first : Token) (rest : List Token) :
    (insert (f first) (rest.map f)).map view = (insert first rest).map seen := by
  unfold insert
  rw [← List.map_cons, mentions_map agrees.toRespells]
  split
  · rfl
  · exact congrArg ([·]) (agrees.after first _ _ _ _)

theorem update_map (first : Token) (rest : List Token) :
    (update (f first) (rest.map f)).map view = (update first rest).map seen := by
  have head : (rest.map f).headD (f first) = f (rest.headD first) := by
    cases rest <;> rfl
  unfold update
  simp only [← List.map_cons, mentions_map agrees.toRespells, secondIs_map agrees.toRespells, head]
  split
  · rfl
  · split
    · split
      · rfl
      · exact congrArg ([·]) (agrees.after _ _ _ _ _)
    · split
      · rfl
      · exact congrArg ([·]) (agrees.after first _ _ _ _)

theorem delete_map (first : Token) (rest : List Token) :
    (delete (f first) (rest.map f)).map view = (delete first rest).map seen := by
  unfold delete
  rw [← List.map_cons, mentions_map agrees.toRespells, secondIs_map agrees.toRespells, secondIs_map agrees.toRespells]
  split
  · rfl
  · exact congrArg ([·]) (agrees.after first _ _ _ _)

theorem add_map (first : Token) (rest : List Token) :
    (add (f first) (rest.map f)).map view = (add first rest).map seen := by
  unfold add
  dsimp only
  rw [← List.map_cons, mentions_map agrees.toRespells, lastOf_map, statementText_map agrees.toRespells]
  split
  · rfl
  · exact congrArg ([·]) (agrees.after (lastOf first rest) _ _ _ _)

theorem create_map (first : Token) (rest : List Token) :
    (create (f first) (rest.map f)).map view = (create first rest).map seen := by
  cases rest with
  | nil => exact congrArg ([·]) (agrees.after first _ _ _ _)
  | cons object rest =>
    have second : secondIs ((object :: rest).map f) = secondIs (object :: rest) :=
      funext (secondIs_map agrees.toRespells (object :: rest))
    rw [List.map_cons] at second ⊢
    unfold create
    rw [second]
    dsimp only
    split
    · rfl
    · exact congrArg ([·]) (agrees.on object .createMissingObject
        (fun value => ascii "\"" ++ value ++ ascii "\" cannot be created.") _)

theorem command_map (first : Token) : (command (f first)).map view = (command first).map seen := by
  unfold command
  dsimp only
  rw [agrees.text]
  split
  · rfl
  · exact congrArg ([·]) (agrees.on first .unrecognizedCommand
      (fun value => ascii "\"" ++ value ++ ascii "\" is not a recognized SyndrQL command.") _)

theorem diagnose_map (first : Token) (rest : List Token) :
    (diagnose (f first) (rest.map f)).map view = (diagnose first rest).map seen := by
  unfold diagnose
  dsimp only
  rw [agrees.text]
  split
  · exact select_map agrees first rest
  split
  · exact insert_map agrees first rest
  split
  · exact update_map agrees first rest
  split
  · exact delete_map agrees first rest
  split
  · exact add_map agrees first rest
  split
  · exact create_map agrees first rest
  · exact command_map agrees first

end Shape

/-! ### Whole statements -/

namespace Analysis

theorem incompleteStatement_map (tokens : List Token) (last : Token) {r r' : Report} (alike : r.Alike r') :
    (incompleteStatement (tokens.map f) (f last) r).map view = (incompleteStatement tokens last r').map seen := by
  unfold incompleteStatement
  rw [alike.incomplete, alike.expected, statementText_map agrees.toRespells]
  dsimp only
  split
  · exact congrArg ([·]) (agrees.after last _ _ _ _)
  · rfl

theorem unexpectedTokens_map (tokens : List Token) {r r' : Report} (alike : r.Alike r') :
    (unexpectedTokens (tokens.map f) r).map view = (unexpectedTokens tokens r').map seen := by
  have remedies (t : Token) : remedy (f t) = remedy t := by
    rw [remedy, remedy, agrees.kind, agrees.read Keyword.suggest_toUpper]
  rw [unexpectedTokens, unexpectedTokens, alike.invalidTokens, List.map_filterMap, List.map_filterMap]
  refine congrArg (List.filterMap · r'.invalidTokens) (funext fun index => ?_)
  rw [List.getElem?_map]
  cases tokens[index]? with
  | none => rfl
  | some t =>
    show some (view (unexpectedToken (f t))) = some (seen (unexpectedToken t))
    rw [unexpectedToken, remedies]
    exact congrArg some (agrees.on t _ (fun value => ascii "Unexpected token \"" ++ value ++ ascii "\".") _)

/-- The diagnostics of mapped tokens, in one view, are those of the tokens in the other. The diagnostic of
an empty statement is about no token; either it is not given or the views show the same of it. -/
theorem ofReport_map {tokens : List Token} {r r' : Report} (alike : r.Alike r')
    (blank : significantTokens tokens = [] → r'.valid = true ∨ view emptyStatement = seen emptyStatement) :
    (ofReport (tokens.map f) r).map view = (ofReport tokens r').map seen := by
  have significant : significantTokens (tokens.map f) = (significantTokens tokens).map f := by
    rw [significantTokens, List.filter_map]
    exact congrArg _ (List.filter_congr fun t _ => agrees.isSignificant t)
  unfold ofReport
  rw [alike.valid, significant]
  split
  · rfl
  · rename_i refused
    cases found : significantTokens tokens with
    | nil => exact congrArg ([·]) ((blank found).resolve_left refused)
    | cons first rest =>
      rw [List.map_cons]
      dsimp only
      have parts : (Shape.diagnose (f first) (rest.map f) ++
            incompleteStatement (f first :: rest.map f) (Shape.lastOf (f first) (rest.map f)) r ++
            unexpectedTokens (tokens.map f) r).map view =
          (Shape.diagnose first rest ++ incompleteStatement (first :: rest) (Shape.lastOf first rest) r' ++
            unexpectedTokens tokens r').map seen := by
        rw [List.map_append, List.map_append, List.map_append, List.map_append, Shape.diagnose_map agrees,
          Shape.lastOf_map, ← List.map_cons, incompleteStatement_map agrees _ _ alike,
          unexpectedTokens_map agrees _ alike]
      have empty := congrArg List.isEmpty parts
      rw [List.isEmpty_map, List.isEmpty_map] at empty
      rw [empty]
      split
      · exact congrArg ([·]) (agrees.on first _ (fun _ => ascii "Syntax error in SyndrQL statement.") _)
      · exact parts

end Analysis

end Agreement

end QueryService
