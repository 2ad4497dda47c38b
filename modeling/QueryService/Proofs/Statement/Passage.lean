import QueryService.Proofs.Token.Reading
import QueryService.Proofs.Token.StringEnd
import QueryService.Statement

/-!
# The search for the end of a statement, token by token

The search reads bytes with a state of its own. A token of the text is never cut by it: it steps over
every token but a semicolon, with which it ends (`statementLength_token`).
-/

namespace QueryService
open Lexer

/-- Bytes that may end a statement or open a string or a comment. -/
def marks : Bytes :=
  [Byte.doubleQuote, Byte.singleQuote, Byte.semicolon, Byte.minus, Byte.slash]

/-- Whether the search takes `c` for one more byte of code when `rest` follows. -/
def plain (c : UInt8) (rest : Bytes) : Bool :=
  !(Byte.isQuote c || c == Byte.semicolon || (c == Byte.minus || c == Byte.slash) && nextIs (· == c) rest ||
    c == Byte.slash && nextIs (· == Byte.star) rest)

/-- A class apart from the marks and from white space. -/
structure Visible (p : UInt8 → Bool) : Prop where
  marks : ∀ c ∈ marks, p c = false
  spaces : ∀ c ∈ [Byte.space, Byte.tab, Byte.lf, Byte.cr], p c = false

theorem Visible.not_mem {p : UInt8 → Bool} {c : UInt8} (apart : Visible p) (member : p c = true) :
    c ∉ QueryService.marks := by
  intro mark
  rw [apart.marks c mark] at member
  cases member

theorem Visible.not_space {p : UInt8 → Bool} {c : UInt8} (apart : Visible p) (member : p c = true) :
    Byte.isSpace c = false := by
  cases space : Byte.isSpace c with
  | false => rfl
  | true =>
    simp only [Byte.isSpace, Byte.isBlank, Byte.isBreak, Bool.or_eq_true, beq_iff_eq, or_assoc] at space
    rw [apart.spaces c (by simpa using space)] at member
    cases member

theorem Visible.of_all {p : UInt8 → Bool} (unmarked : QueryService.marks.all (!p ·) = true)
    (unspaced : [Byte.space, Byte.tab, Byte.lf, Byte.cr].all (!p ·) = true) : Visible p where
  marks c mark := (Bool.not_eq_true' (p c)).mp (List.all_eq_true.mp unmarked c mark)
  spaces c space := (Bool.not_eq_true' (p c)).mp (List.all_eq_true.mp unspaced c space)

theorem visible_isDigit : Visible Byte.isDigit := .of_all rfl rfl

theorem visible_isWordPart : Visible Byte.isWordPart := .of_all rfl rfl

theorem visible_isExponentMark : Visible Byte.isExponentMark := .of_all rfl rfl

theorem visible_isContinuation : Visible Byte.isContinuation := .of_all rfl rfl

theorem plain_of_not_mem {c : UInt8} (rest : Bytes) (unmarked : c ∉ marks) : plain c rest = true := by
  simp only [marks, List.mem_cons, List.not_mem_nil, or_false, not_or] at unmarked
  simp [plain, Byte.isQuote, unmarked]

theorem statementLength_plain {c : UInt8} {rest : Bytes} (code : plain c rest = true) :
    Passage.code.statementLength (c :: rest) = Passage.code.statementLength rest + 1 := by
  cases rest with
  | nil => rfl
  | cons next rest =>
    simp only [plain, nextIs_cons, Bool.not_eq_true', Bool.or_eq_false_iff] at code
    rw [Passage.statementLength, code.1.1.1, code.1.1.2, code.1.2, code.2]
    rfl

/-- A stretch of code that the search steps over, with all its bytes in a class. -/
structure Stretch (among : UInt8 → Bool) (n : Nat) (text : Bytes) : Prop where
  le : n ≤ text.length
  passed : Passage.code.statementLength text = n + Passage.code.statementLength (text.drop n)
  all : ∀ c ∈ text.take n, among c = true

namespace Stretch

variable {among : UInt8 → Bool} {m n : Nat} {c : UInt8} {rest text : Bytes}

theorem zero (among : UInt8 → Bool) (text : Bytes) : Stretch among 0 text where
  le := Nat.zero_le _
  passed := (Nat.zero_add _).symm
  all c member := by cases member

theorem cons (code : plain c rest = true) (member : among c = true) (later : Stretch among n rest) :
    Stretch among (n + 1) (c :: rest) where
  le := Nat.succ_le_succ later.le
  passed := by
    rw [statementLength_plain code, later.passed, List.drop_succ_cons, Nat.add_right_comm]
  all d inside := by
    rw [List.take_succ_cons] at inside
    rcases List.mem_cons.mp inside with rfl | inside
    · exact member
    · exact later.all d inside

theorem add (first : Stretch among m text) (second : Stretch among n (text.drop m)) :
    Stretch among (m + n) text where
  le := by
    have := first.le
    have := second.le
    rw [List.length_drop] at this
    omega
  passed := by rw [first.passed, second.passed, List.drop_drop, Nat.add_assoc]
  all c inside := by
    rw [List.take_add] at inside
    rcases List.mem_append.mp inside with inside | inside
    · exact first.all c inside
    · exact second.all c inside

theorem of_all (le : n ≤ text.length) (unmarked : ∀ c ∈ text.take n, c ∉ marks)
    (all : ∀ c ∈ text.take n, among c = true) : Stretch among n text := by
  induction n generalizing text with
  | zero => exact zero among text
  | succ n ih =>
    cases text with
    | nil => cases le
    | cons c rest =>
      rw [List.take_succ_cons] at unmarked all
      have member : c ∈ c :: rest.take n := List.mem_cons_self
      refine cons (plain_of_not_mem rest (unmarked c member)) (all c member) (ih (Nat.le_of_succ_le_succ le) ?_ ?_)
      · exact fun d inside => unmarked d (List.mem_cons_of_mem c inside)
      · exact fun d inside => all d (List.mem_cons_of_mem c inside)

end Stretch

/-- Bytes of code that are not white space. -/
abbrev Solid : Nat → Bytes → Prop := Stretch (!Byte.isSpace ·)

theorem Visible.solid {p : UInt8 → Bool} (apart : Visible p) {n : Nat} {text : Bytes} (le : n ≤ text.length)
    (all : ∀ c ∈ text.take n, p c = true) : Solid n text := by
  refine Stretch.of_all le (fun c inside => apart.not_mem (all c inside)) fun c inside => ?_
  rw [apart.not_space (all c inside)]
  rfl

theorem Visible.solid_run {p : UInt8 → Bool} (apart : Visible p) (text : Bytes) :
    Solid (Bytes.run p text) text := by
  exact apart.solid ((Settled.run p).le text) fun _ => Bytes.mem_take_run

theorem solid_digits {c : UInt8} {rest : Bytes} (visible : Byte.isSpace c = false)
    (code : nextIs Byte.isDigit rest = true → plain c rest = true) : Solid (digits 1 rest) (c :: rest) := by
  unfold digits
  split
  · rename_i next
    rw [Nat.add_comm]
    exact Stretch.cons (code next) (by rw [visible]; rfl) (visible_isDigit.solid_run rest)
  · exact Stretch.zero _ _

theorem solid_fraction (text : Bytes) : Solid (fraction text) text := by
  cases text with
  | nil => exact Stretch.zero _ _
  | cons c rest =>
    rw [fraction_cons]
    split
    · rename_i dot
      rw [eq_of_beq dot]
      exact solid_digits rfl fun _ => plain_of_not_mem rest (by decide)
    · exact Stretch.zero _ _

theorem plain_sign {c : UInt8} {rest : Bytes} (sign : Byte.isSign c = true)
    (next : nextIs Byte.isDigit rest = true) : plain c rest = true ∧ Byte.isSpace c = false := by
  cases rest with
  | nil => cases next
  | cons d rest =>
    rw [nextIs_cons] at next
    rcases Bool.or_eq_true_iff.mp sign with plus | minus
    · rw [eq_of_beq plus]
      exact ⟨plain_of_not_mem _ (by decide), rfl⟩
    · rw [eq_of_beq minus]
      refine ⟨?_, rfl⟩
      have other : (d == Byte.minus) = false := by
        apply beq_false_of_ne
        rintro rfl
        cases next
      rw [plain, nextIs_cons, other]
      rfl

theorem solid_scale {c : UInt8} {rest : Bytes} (mark : Byte.isExponentMark c = true) :
    Solid (scale rest) (c :: rest) := by
  have unmarked := visible_isExponentMark.not_mem mark
  have visible := visible_isExponentMark.not_space mark
  unfold scale
  split
  · exact solid_digits visible fun _ => plain_of_not_mem rest unmarked
  · cases rest with
    | nil => exact Stretch.zero _ _
    | cons sign later =>
      rw [nextIs_cons, List.tail_cons]
      split
      · rename_i signed
        unfold digits
        split
        · rename_i next
          obtain ⟨code, hidden⟩ := plain_sign signed next
          rw [Nat.add_comm]
          refine Stretch.cons (plain_of_not_mem _ unmarked) (by rw [visible]; rfl) ?_
          exact Stretch.cons code (by rw [hidden]; rfl) (visible_isDigit.solid_run later)
        · exact Stretch.zero _ _
      · exact Stretch.zero _ _

theorem solid_exponent (text : Bytes) : Solid (exponent text) text := by
  cases text with
  | nil => exact Stretch.zero _ _
  | cons c rest =>
    rw [exponent_cons]
    split
    · rename_i mark
      exact solid_scale mark
    · exact Stretch.zero _ _

theorem solid_numberTail (text : Bytes) : Solid (numberTail text) text :=
  (((visible_isDigit.solid_run text).add (solid_fraction _)).add (solid_exponent _)).add (visible_isWordPart.solid_run _)

theorem solid_placeholderTail (text : Bytes) : Solid (placeholderTail text) text := by
  unfold placeholderTail
  split
  · exact visible_isDigit.solid_run text
  · exact visible_isWordPart.solid_run text

theorem solid_sequenceTail (c : UInt8) (text : Bytes) : Solid (sequenceTail c text) text := by
  unfold sequenceTail
  dsimp only
  split
  · rename_i complete
    obtain ⟨length, continued⟩ := complete
    refine visible_isContinuation.solid ?_ fun d inside => List.all_eq_true.mp continued d inside
    rw [← length, List.length_take]
    exact Nat.min_le_right _ _
  · exact Stretch.zero _ _

theorem isOperator_second {c d : UInt8} (operator : isOperator [c, d] = true) :
    d ∉ marks ∧ Byte.isSpace d = false := by
  have all : operators.all (·.tail.all fun d => !marks.contains d && !Byte.isSpace d) = true := rfl
  have behind := List.all_eq_true.mp all [c, d] (List.contains_iff_mem.mp operator)
  simpa using behind

theorem solid_symbol {c : UInt8} {rest : Bytes} (visible : Byte.isSpace c = false)
    (code : plain c rest = true) : Solid ((symbol c rest).extra + 1) (c :: rest) := by
  refine Stretch.cons code (by rw [visible]; rfl) ?_
  unfold symbol
  split
  · rename_i next
    cases rest with
    | nil => cases next
    | cons d rest =>
      obtain ⟨unmarked, hidden⟩ := isOperator_second (c := c) next
      exact Stretch.cons (plain_of_not_mem rest unmarked) (by rw [hidden]; rfl) (Stretch.zero _ rest)
  · repeat' split
    · exact Stretch.zero _ _
    · exact Stretch.zero _ _
    · exact solid_sequenceTail c rest

theorem space_not_mem {c : UInt8} (space : Byte.isSpace c = true) : c ∉ marks := by
  simp only [Byte.isSpace, Byte.isBlank, Byte.isBreak, Bool.or_eq_true, beq_iff_eq] at space
  rcases space with (rfl | rfl) | (rfl | rfl) <;> decide

namespace Passage

theorem statementLength_le (p : Passage) (text : Bytes) : p.statementLength text ≤ text.length := by
  fun_induction statementLength p text <;> simp_all

theorem statementLength_lineComment (text : Bytes) :
    lineComment.statementLength text =
      Bytes.run (!Byte.isBreak ·) text + code.statementLength (text.drop (Bytes.run (!Byte.isBreak ·) text)) := by
  induction text with
  | nil => rfl
  | cons c rest ih =>
    rw [statementLength, Bytes.run_cons]
    cases ends : Byte.isBreak c with
    | true =>
      have space : Byte.isSpace c = true := by rw [Byte.isSpace, ends, Bool.or_true]
      rw [if_pos rfl, Bool.not_true, if_neg Bool.false_ne_true, List.drop_zero,
        statementLength_plain (plain_of_not_mem rest (space_not_mem space)), Nat.zero_add]
    | false =>
      rw [if_neg Bool.false_ne_true, Bool.not_false, if_pos rfl, ih, List.drop_succ_cons, Nat.add_right_comm]

theorem statementLength_blockComment (text : Bytes) :
    blockComment.statementLength text =
      blockCommentTail text + code.statementLength (text.drop (blockCommentTail text)) := by
  fun_induction blockCommentTail text with
  | case1 => rfl
  | case2 rest =>
    show code.statementLength rest + 2 = 2 + code.statementLength rest
    exact Nat.add_comm _ _
  | case3 c rest unended ih =>
    rw [statementLength, ih, List.drop_succ_cons, Nat.add_right_comm]
    exact unended

theorem statementLength_string_cons {quote c : UInt8} (rest : Bytes) (whole : (c == Byte.backslash) = false) :
    (string quote).statementLength (c :: rest) =
      if c == quote then code.statementLength rest + 1 else (string quote).statementLength rest + 1 := by
  cases rest with
  | nil =>
    rw [statementLength, statementLength, statementLength]
    split <;> rfl
  | cons next rest => rw [statementLength, whole, if_neg Bool.false_ne_true]

theorem statementLength_string {quote : UInt8} {text : Bytes} (quoted : Byte.isQuote quote = true)
    (closed : closes quote text = true) :
    (string quote).statementLength text =
      stringTail quote text + code.statementLength (text.drop (stringTail quote text)) := by
  fun_induction stringTail quote text with
  | case1 => cases closed
  | case2 next rest ends =>
    rw [closes, ends] at closed
    cases closed
  | case3 next rest inner ih =>
    rw [closes, Bool.and_eq_true] at closed
    rw [statementLength, if_pos (by rfl), ih closed.2, List.drop_succ_cons, List.drop_succ_cons, Nat.add_right_comm]
  | case4 c rest whole ends =>
    rw [closes, ends] at closed
    · cases closed
    · exact whole
  | case5 c rest whole inner closing =>
    have plain : (c == Byte.backslash) = false := by
      rw [eq_of_beq closing]
      exact beq_false_of_ne (quote_ne_backslash quoted).symm
    rw [statementLength_string_cons rest plain, if_pos closing, List.drop_succ_cons, List.drop_zero, Nat.add_comm]
  | case6 c rest whole inner other ih =>
    rw [closes, Bool.eq_false_iff.mpr other, Bool.false_or, Bool.and_eq_true] at closed
    · cases rest with
      | nil => cases closed.2
      | cons next rest =>
        have plain : (c == Byte.backslash) = false :=
          beq_false_of_ne fun escape => whole next rest escape rfl
        rw [statementLength_string_cons _ plain, if_neg other, ih closed.2, List.drop_succ_cons, Nat.add_right_comm]
    · exact whole

end Passage

/-- What the next token of a text is to the search for the end of a statement. -/
inductive Form (c : UInt8) (rest : Bytes) : Lexeme → Prop where
  | space {kind : TokenKind} {extra : Nat} (space : Byte.isSpace c = true)
      (trivial : kind = .whitespace ∨ kind = .newline)
      (stretch : Stretch Byte.isSpace (extra + 1) (c :: rest)) : Form c rest ⟨kind, extra⟩
  | lineComment {later : Bytes} (opens : c = Byte.minus ∨ c = Byte.slash) (again : rest = c :: later) :
      Form c rest ⟨.comment, Bytes.run (!Byte.isBreak ·) later + 1⟩
  | blockComment {later : Bytes} (opens : c = Byte.slash) (star : rest = Byte.star :: later) :
      Form c rest ⟨.comment, blockCommentTail later + 1⟩
  | string (quoted : Byte.isQuote c = true) : Form c rest ⟨.string, stringTail c rest⟩
  | semicolon (ends : c = Byte.semicolon) : Form c rest ⟨.punctuation, 0⟩
  | solid {kind : TokenKind} {extra : Nat} (visible : Byte.isSpace c = false) (inner : c ≠ Byte.semicolon)
      (significant : kind.isSignificant = true) (other : kind ≠ .string)
      (stretch : Solid (extra + 1) (c :: rest)) : Form c rest ⟨kind, extra⟩

theorem Visible.form {p : UInt8 → Bool} (apart : Visible p) {c : UInt8} {rest : Bytes} {kind : TokenKind}
    {extra : Nat} (first : p c = true) (significant : kind.isSignificant = true) (other : kind ≠ .string)
    (stretch : Solid extra rest) : Form c rest ⟨kind, extra⟩ := by
  have visible := apart.not_space first
  have unmarked := apart.not_mem first
  refine Form.solid visible ?_ significant other (Stretch.cons (plain_of_not_mem rest unmarked) (by rw [visible]; rfl) stretch)
  rintro rfl
  exact unmarked (by decide)

theorem stretch_spaces {n : Nat} {text : Bytes} (le : n ≤ text.length)
    (all : ∀ c ∈ text.take n, Byte.isSpace c = true) : Stretch Byte.isSpace n text :=
  Stretch.of_all le (fun c inside => space_not_mem (all c inside)) all

theorem form_blank {c : UInt8} {rest : Bytes} (blank : Byte.isBlank c = true) :
    Form c rest ⟨.whitespace, Bytes.run Byte.isBlank rest⟩ := by
  have space {d : UInt8} (blank : Byte.isBlank d = true) : Byte.isSpace d = true := by
    rw [Byte.isSpace, blank, Bool.true_or]
  refine Form.space (space blank) (Or.inl rfl) (stretch_spaces ?_ ?_)
  · exact Nat.succ_le_succ ((Settled.run Byte.isBlank).le rest)
  · intro d inside
    rw [List.take_succ_cons] at inside
    rcases List.mem_cons.mp inside with rfl | inside
    · exact space blank
    · exact space (Bytes.mem_take_run inside)

theorem form_break {c : UInt8} {rest : Bytes} (ends : Byte.isBreak c = true) :
    Form c rest ⟨.newline, if c == Byte.cr && nextIs (· == Byte.lf) rest then 1 else 0⟩ := by
  have space : Byte.isSpace c = true := by rw [Byte.isSpace, ends, Bool.or_true]
  refine Form.space space (Or.inr rfl) ?_
  split
  · rename_i pair
    cases rest with
    | nil => cases (Bool.and_eq_true_iff.mp pair).2
    | cons d rest =>
      have feed : d = Byte.lf := eq_of_beq (Bool.and_eq_true_iff.mp pair).2
      refine stretch_spaces (by simp) ?_
      have second : Byte.isSpace Byte.lf = true := rfl
      simp [space, feed, second]
  · refine stretch_spaces (by simp) ?_
    simp [space]

theorem not_isOperator_semicolon (d : UInt8) : isOperator [Byte.semicolon, d] = false := by
  have other : ∀ text ∈ operators, text.head? ≠ some Byte.semicolon := by decide
  cases operator : isOperator [Byte.semicolon, d] with
  | false => rfl
  | true =>
    rw [isOperator, List.contains_iff_mem] at operator
    exact absurd rfl (other _ operator)

theorem symbol_semicolon (rest : Bytes) : symbol Byte.semicolon rest = ⟨.punctuation, 0⟩ := by
  have single : nextIs (fun d => isOperator [Byte.semicolon, d]) rest = false := by
    cases rest with
    | nil => rfl
    | cons d rest => exact not_isOperator_semicolon d
  rw [symbol, single]
  rfl

theorem lexeme_form (c : UInt8) (rest : Bytes) : Form c rest (lexeme c rest) := by
  have reading := lexeme_reading c rest
  generalize lexeme c rest = next at reading
  cases reading with
  | whitespace blank => exact form_blank blank
  | newline ends => exact form_break ends
  | lineComment inner opens again =>
    rw [again, Bytes.run_cons, inner, if_pos (by rfl)]
    exact Form.lineComment opens rfl
  | blockComment opens star =>
    rw [Nat.add_comm]
    exact Form.blockComment opens star
  | string quoted => exact Form.string quoted
  | number digit => exact visible_isDigit.form digit rfl (by decide) (solid_numberTail rest)
  | word start =>
    have part : Byte.isWordPart c = true := by rw [Byte.isWordPart, start, Bool.true_or]
    exact visible_isWordPart.form part rfl (by decide) (visible_isWordPart.solid_run rest)
  | placeholder starts =>
    have apart : Visible fun c => c == Byte.atSign || c == Byte.dollar := .of_all rfl rfl
    have first : (c == Byte.atSign || c == Byte.dollar) = true := by
      rw [startsPlaceholder, Bool.or_eq_true, Bool.and_eq_true, Bool.and_eq_true] at starts
      rw [Bool.or_eq_true]
      exact starts.imp And.left And.left
    exact apart.form first rfl (by decide) (solid_placeholderTail rest)
  | symbol visible unquoted noLine noBlock =>
    by_cases final : c = Byte.semicolon
    · rw [final, symbol_semicolon]
      exact Form.semicolon rfl
    · have code : plain c rest = true := by
        rw [plain, unquoted, beq_false_of_ne final, noLine, noBlock]
        rfl
      have plainly : ∀ kind ∈ [TokenKind.operator, TokenKind.punctuation, TokenKind.unknown],
          kind.isSignificant = true ∧ kind ≠ .string := by decide
      obtain ⟨significant, other⟩ := plainly _ (symbol_kind c rest)
      exact Form.solid visible final significant other (solid_symbol visible code)

theorem lexeme_semicolon (rest : Bytes) : lexeme Byte.semicolon rest = ⟨.punctuation, 0⟩ := by
  have symbolic : lexeme Byte.semicolon rest = symbol Byte.semicolon rest := rfl
  rw [symbolic, symbol_semicolon]

/-- The search for the end of a statement steps over every token but a semicolon. -/
theorem statementLength_token {c : UInt8} {rest : Bytes}
    (closed : (lexeme c rest).kind = .string → closes c rest = true) :
    Passage.code.statementLength (c :: rest) =
      if c = Byte.semicolon then 1
      else (lexeme c rest).extra + 1 + Passage.code.statementLength (rest.drop (lexeme c rest).extra) := by
  have form := lexeme_form c rest
  generalize lexeme c rest = next at closed form ⊢
  cases form with
  | space space trivial stretch =>
    have other : c ≠ Byte.semicolon := by rintro rfl; cases space
    rw [if_neg other, stretch.passed, List.drop_succ_cons]
  | lineComment opens again =>
    rename_i later
    have other : c ≠ Byte.semicolon := by rintro rfl; rcases opens with opens | opens <;> cases opens
    have comment : Passage.code.statementLength (c :: c :: later) = Passage.lineComment.statementLength later + 2 := by
      rcases opens with rfl | rfl <;> rfl
    rw [if_neg other, again, comment, Passage.statementLength_lineComment, List.drop_succ_cons, Nat.add_right_comm]
  | blockComment opens star =>
    rename_i later
    have comment : Passage.code.statementLength (Byte.slash :: Byte.star :: later) =
        Passage.blockComment.statementLength later + 2 := rfl
    rw [opens, star, if_neg (by decide), comment, Passage.statementLength_blockComment, List.drop_succ_cons,
      Nat.add_right_comm]
  | string quoted =>
    have other : c ≠ Byte.semicolon := by rintro rfl; cases quoted
    have opened : Passage.code.statementLength (c :: rest) = (Passage.string c).statementLength rest + 1 := by
      cases rest with
      | nil => cases closed rfl
      | cons next rest => rw [Passage.statementLength, if_pos quoted]
    rw [if_neg other, Nat.add_right_comm, ← Passage.statementLength_string quoted (closed rfl), opened]
  | semicolon ends =>
    rw [if_pos ends, ends]
    cases rest <;> rfl
  | solid visible inner significant other stretch => rw [if_neg inner, stretch.passed, List.drop_succ_cons]

end QueryService
