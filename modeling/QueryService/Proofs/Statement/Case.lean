import QueryService.Proofs.Diagnostic.Respelling
import QueryService.Proofs.Statement.Segmentation

/-!
# The case of letters

Tokens, reports, statements and diagnostics of a text are those of the text in upper case but for what
they quote. So two spellings of a text that differ in case only are treated alike (`case_ignored`).
-/

namespace QueryService

open Byte (Caseless caseless_beq)

/-! ### Statements -/

namespace Passage

/-- The passage is no string, or one that a quote opens. -/
def Quoted : Passage → Prop
  | .string quote => Byte.isQuote quote = true
  | _ => True

theorem doubled_toUpper (c next : UInt8) :
    ((Byte.toUpper c == Byte.minus || Byte.toUpper c == Byte.slash) && Byte.toUpper next == Byte.toUpper c) =
      ((c == Byte.minus || c == Byte.slash) && next == c) := by
  cases letter : Byte.isLetter c with
  | true =>
    have other : ∀ c, Byte.isLetter c = true → (c == Byte.minus || c == Byte.slash) = false := by
      intro c letter
      obtain ⟨-, -, minus, slash, -⟩ := Lexer.apart_of_letter c letter
      rw [minus, slash, Bool.or_false]
    rw [other c letter, other _ ((Byte.caseless_isLetter c).trans letter), Bool.false_and, Bool.false_and]
  | false =>
    have same : (Byte.toUpper next == c) = (next == c) := caseless_beq letter next
    rw [Byte.toUpper_of_not_letter letter, same]

theorem statementLength_toUpper {p : Passage} (quoted : p.Quoted) (text : Bytes) :
    p.statementLength (Bytes.toUpper text) = p.statementLength text := by
  have quotes : ∀ c, Byte.isQuote (Byte.toUpper c) = Byte.isQuote c := Byte.caseless_isQuote
  have breaks : ∀ c, Byte.isBreak (Byte.toUpper c) = Byte.isBreak c := Byte.caseless_isBreak
  have slash : ∀ c, (Byte.toUpper c == Byte.slash) = (c == Byte.slash) := caseless_beq (by decide)
  have star : ∀ c, (Byte.toUpper c == Byte.star) = (c == Byte.star) := caseless_beq (by decide)
  have semicolon : ∀ c, (Byte.toUpper c == Byte.semicolon) = (c == Byte.semicolon) := caseless_beq (by decide)
  have escape : ∀ c, (Byte.toUpper c == Byte.backslash) = (c == Byte.backslash) := caseless_beq (by decide)
  have closes {quote : UInt8} (quoted : (string quote).Quoted) (c : UInt8) :
      (Byte.toUpper c == quote) = (c == quote) := caseless_beq (Byte.plain_of_isQuote quote quoted) c
  fun_induction Passage.statementLength p text with
  | case1 p => cases p <;> rfl
  | case2 c => rfl
  | case3 c next rest opens ih =>
    have same := Byte.toUpper_of_not_letter (Byte.plain_of_isQuote c opens)
    rw [Bytes.toUpper_cons, same, Bytes.toUpper_cons, statementLength, if_pos opens, ← Bytes.toUpper_cons, ih opens]
  | case4 c next rest plain line ih =>
    rw [Bytes.toUpper_cons, Bytes.toUpper_cons, statementLength, quotes, doubled_toUpper, if_neg plain, if_pos line,
      ih trivial]
  | case5 c next rest plain other block ih =>
    rw [Bytes.toUpper_cons, Bytes.toUpper_cons, statementLength, quotes, doubled_toUpper, slash, star, if_neg plain,
      if_neg other, if_pos block, ih trivial]
  | case6 c next rest plain other code ends =>
    rw [Bytes.toUpper_cons, Bytes.toUpper_cons, statementLength, quotes, doubled_toUpper, slash, star, semicolon,
      if_neg plain, if_neg other, if_neg code, if_pos ends]
  | case7 c next rest plain other code inner ih =>
    rw [Bytes.toUpper_cons, Bytes.toUpper_cons, statementLength, quotes, doubled_toUpper, slash, star, semicolon,
      if_neg plain, if_neg other, if_neg code, if_neg inner, ← Bytes.toUpper_cons, ih trivial]
  | case8 quote c => rfl
  | case9 quote c next rest escaped ih =>
    rw [Bytes.toUpper_cons, Bytes.toUpper_cons, statementLength, escape, if_pos escaped, ih quoted]
  | case10 quote c next rest whole closing ih =>
    rw [Bytes.toUpper_cons, Bytes.toUpper_cons, statementLength, escape, closes quoted, if_neg whole, if_pos closing,
      ← Bytes.toUpper_cons, ih trivial]
  | case11 quote c next rest whole inner ih =>
    rw [Bytes.toUpper_cons, Bytes.toUpper_cons, statementLength, escape, closes quoted, if_neg whole, if_neg inner,
      ← Bytes.toUpper_cons, ih quoted]
  | case12 c rest ih =>
    have behind : (if Byte.isBreak c then code else lineComment).Quoted := by
      split <;> exact trivial
    rw [Bytes.toUpper_cons, statementLength, breaks, ih behind]
  | case13 rest ih => exact congrArg (· + 2) (ih trivial)
  | case14 c rest unended ih =>
    rw [Bytes.toUpper_cons, statementLength, ih trivial]
    intro later opens ends
    rw [Byte.toUpper_eq_iff (by decide)] at opens
    cases rest with
    | nil => cases ends
    | cons d rest =>
      rw [Bytes.toUpper_cons, List.cons.injEq, Byte.toUpper_eq_iff (by decide)] at ends
      exact unended rest opens (by rw [ends.1])

end Passage

theorem segments_toUpper (offset : Nat) (text : Bytes) :
    segments offset (Bytes.toUpper text) = (segments offset text).map fun piece => (piece.1, Bytes.toUpper piece.2) := by
  induction text using segmentInduction generalizing offset with
  | nil => rw [Bytes.toUpper_nil, segments_nil]; rfl
  | cons text nonempty ih =>
    have code : Passage.code.Quoted := trivial
    have same := Passage.statementLength_toUpper code text
    rw [segments_cons offset nonempty, segments_cons offset (by simpa using nonempty), same, Bytes.take_toUpper,
      Bytes.drop_toUpper, ih, List.map_cons]

namespace Statement

def toUpper (s : Statement) : Statement :=
  { s with code := Bytes.toUpper s.code, tokens := s.tokens.map Token.toUpper }

theorem ofCode_toUpper (code : Bytes) (start : Nat) (origin : Position) :
    ofCode (Bytes.toUpper code) start origin = (ofCode code start origin).toUpper := by
  have empty : (Bytes.toUpper code).isEmpty = code.isEmpty := List.isEmpty_map
  unfold ofCode toUpper
  simp only [tokenize_toUpper, lineStarts_toUpper, Bytes.length_toUpper, empty, List.map_map]
  rfl

theorem parse_toUpper (text : Bytes) : parse (Bytes.toUpper text) = (parse text).map toUpper := by
  rw [parse_eq_filterMap, parse_eq_filterMap, segments_toUpper, List.filterMap_map, List.map_filterMap]
  refine congrArg (List.filterMap · (segments 0 text)) (funext fun piece => ?_)
  have empty : (Bytes.toUpper (Bytes.trim Byte.isSpace piece.2)).isEmpty = (Bytes.trim Byte.isSpace piece.2).isEmpty :=
    List.isEmpty_map
  rw [Function.comp_apply]
  unfold ofSegment?
  dsimp only
  rw [lineStarts_toUpper, Bytes.trim_toUpper Byte.caseless_isSpace, Bytes.run_toUpper Byte.caseless_isSpace, empty,
    ofCode_toUpper]
  split <;> rfl

end Statement

/-! ### Two spellings -/

theorem respells_toUpper : Respells Token.toUpper :=
  ⟨fun _ => rfl, fun _ => rfl, fun t => Bytes.toUpper_toUpper t.value⟩

/-- What a token is, apart from its text. -/
def Token.outline (t : Token) : TokenKind × Nat × Nat × Position × Option Keyword :=
  (t.kind, t.start, t.stop, t.position, t.keyword)

/-- Where a statement stands. -/
def Statement.span (s : Statement) : Nat × Nat × Position × Position := (s.start, s.stop, s.first, s.last)

/-- What a diagnostic says, apart from quotations. -/
def Diagnostic.outline (d : Diagnostic) : Fault × Position × Nat × Bytes :=
  (d.fault, d.position, d.length, d.suggestion)

theorem agrees_toUpper (firstLine : Nat) :
    Agrees Token.toUpper (fun d => (d.shiftLines firstLine).outline) fun d => (d.shiftLines firstLine).outline where
  toRespells := respells_toUpper
  on t fault message suggestion := by
    simp [Diagnostic.on, Diagnostic.shiftLines, Diagnostic.outline, Token.toUpper]
  opening t fault message suggestion := rfl
  after t fault message source suggestion := by
    simp [Diagnostic.after, Diagnostic.shiftLines, Diagnostic.outline, Token.toUpper, Token.line, Token.column]

theorem analyze_toUpper (tokens : List Token) (report : Report) (firstLine : Nat) :
    (analyze (tokens.map Token.toUpper) report firstLine).map Diagnostic.outline =
      (analyze tokens report firstLine).map Diagnostic.outline := by
  have agrees := agrees_toUpper firstLine
  have tokenwise := literalDiagnostics_map agrees tokens
  have whole := Analysis.ofReport_map agrees (.refl report) fun _ : significantTokens tokens = [] => Or.inr rfl
  rw [analyze, analyze, analyzeTokens, analyzeTokens, analyzeReport, analyzeReport, List.map_append, List.map_append,
    List.map_map, List.map_map, List.map_map, List.map_map]
  exact congrArg₂ (· ++ ·) tokenwise whole

/-- Two texts that differ only in the case of letters have the same tokens but for their texts, the same
report, statements at the same places and the same diagnostics but for what they quote. -/
theorem case_ignored {text recased : Bytes} (same : Bytes.toUpper text = Bytes.toUpper recased) :
    (tokenize text).map Token.outline = (tokenize recased).map Token.outline ∧
    validate (tokenize text) = validate (tokenize recased) ∧
    (Statement.parse text).map Statement.span = (Statement.parse recased).map Statement.span ∧
    ∀ report firstLine, (analyze (tokenize text) report firstLine).map Diagnostic.outline =
      (analyze (tokenize recased) report firstLine).map Diagnostic.outline := by
  have tokens : (tokenize text).map Token.toUpper = (tokenize recased).map Token.toUpper := by
    rw [← tokenize_toUpper, ← tokenize_toUpper, same]
  have statements : (Statement.parse text).map Statement.toUpper = (Statement.parse recased).map Statement.toUpper := by
    rw [← Statement.parse_toUpper, ← Statement.parse_toUpper, same]
  refine ⟨?_, ?_, ?_, fun report firstLine => ?_⟩
  · have outlines := congrArg (List.map Token.outline) tokens
    rw [List.map_map, List.map_map] at outlines
    exact outlines
  · rw [← validate_respelled respells_toUpper (fun _ => rfl) (tokenize text), tokens,
      validate_respelled respells_toUpper (fun _ => rfl)]
  · have spans := congrArg (List.map Statement.span) statements
    rw [List.map_map, List.map_map] at spans
    exact spans
  · rw [← analyze_toUpper (tokenize text), tokens, analyze_toUpper]

/-- A misspelt word gets the same remedy in small letters and in capitals. -/
theorem small_letters_ignored :
    Bytes.toUpper (ascii "show bundls;") = Bytes.toUpper (ascii "Show BUNDLS;") ∧
      validate (tokenize (ascii "show bundls;")) = validate (tokenize (ascii "Show BUNDLS;")) ∧
      (analyze (tokenize (ascii "show bundls;")) (validate (tokenize (ascii "show bundls;"))) 0).map
          Diagnostic.outline =
        [(.unexpectedToken, ⟨0, 5⟩, 6, ascii "Did you mean BUNDLE?")] := by
  have same : Bytes.toUpper (ascii "show bundls;") = Bytes.toUpper (ascii "Show BUNDLS;") := by decide +kernel
  obtain ⟨_, reports, _, diagnostics⟩ := case_ignored same
  refine ⟨same, reports, ?_⟩
  rw [diagnostics]
  decide +kernel

end QueryService
