import QueryService.Proofs.Grammar.Alignment
import QueryService.Proofs.Text.Case
import QueryService.Proofs.Token.Boundary

/-!
# Tokens of a text in upper case

How far a token reaches and of which kind it is do not depend on the case of letters, so the tokens of a
text in upper case are those of the text, each in upper case (`tokenize_toUpper`).
-/

namespace QueryService

open Byte (Caseless caseless_beq)

variable {c : UInt8} {rest : Bytes}

def Token.toUpper (t : Token) : Token := { t with value := Bytes.toUpper t.value }

namespace Lexer

theorem nextIs_map {p q : UInt8 → Bool} (same : ∀ c, p (Byte.toUpper c) = q c) (rest : Bytes) :
    nextIs p (Bytes.toUpper rest) = nextIs q rest := by
  cases rest with
  | nil => rfl
  | cons c rest => exact same c

@[simp] theorem nextIs_toUpper {p : UInt8 → Bool} (caseless : Caseless p) (rest : Bytes) :
    nextIs p (Bytes.toUpper rest) = nextIs p rest := nextIs_map caseless rest

@[simp] theorem tail_toUpper (rest : Bytes) : (Bytes.toUpper rest).tail = Bytes.toUpper rest.tail :=
  List.map_tail.symm

/-! ### Strings and comments -/

@[simp] theorem blockCommentTail_toUpper (text : Bytes) :
    blockCommentTail (Bytes.toUpper text) = blockCommentTail text := by
  fun_induction blockCommentTail text with
  | case1 => rfl
  | case2 => rfl
  | case3 c rest unended ih =>
    rw [Bytes.toUpper_cons, blockCommentTail, ih]
    intro later star slash
    have opens : c = Byte.star := (Byte.toUpper_eq_iff (by decide)).mp star
    cases rest with
    | nil => cases slash
    | cons d rest =>
      rw [Bytes.toUpper_cons, List.cons.injEq, Byte.toUpper_eq_iff (by decide)] at slash
      exact unended rest opens (by rw [slash.1])

@[simp] theorem stringTail_toUpper {quote : UInt8} (plain : Byte.isLetter quote = false) (text : Bytes) :
    stringTail quote (Bytes.toUpper text) = stringTail quote text := by
  have breaks : ∀ c, Byte.isBreak (Byte.toUpper c) = Byte.isBreak c := Byte.caseless_isBreak
  have closes : ∀ c, (Byte.toUpper c == quote) = (c == quote) := caseless_beq plain
  have alone {c : UInt8} {rest : Bytes} (whole : ∀ next later, c = Byte.backslash → rest = next :: later → False) :
      Byte.toUpper c = Byte.backslash → Bytes.toUpper rest = [] := by
    intro escape
    rw [Byte.toUpper_eq_iff (by decide)] at escape
    rw [single_backslash whole escape]
    rfl
  fun_induction stringTail quote text with
  | case1 => rfl
  | case2 next rest ends =>
    show stringTail quote (Byte.backslash :: Byte.toUpper next :: Bytes.toUpper rest) = 1
    rw [stringTail_escape, breaks, if_pos ends]
  | case3 next rest inner ih =>
    show stringTail quote (Byte.backslash :: Byte.toUpper next :: Bytes.toUpper rest) = _
    rw [stringTail_escape, breaks, if_neg inner, ih]
  | case4 c rest whole ends =>
    rw [Bytes.toUpper_cons, stringTail_cons (alone whole), breaks, if_pos ends]
  | case5 c rest whole inner closing =>
    rw [Bytes.toUpper_cons, stringTail_cons (alone whole), breaks, closes, if_neg inner, if_pos closing]
  | case6 c rest whole inner other ih =>
    rw [Bytes.toUpper_cons, stringTail_cons (alone whole), breaks, closes, if_neg inner, if_neg other, ih]

/-! ### Numbers and placeholders -/

@[simp] theorem digits_toUpper (lead : Nat) (rest : Bytes) : digits lead (Bytes.toUpper rest) = digits lead rest := by
  simp [digits]

@[simp] theorem fraction_toUpper (text : Bytes) : fraction (Bytes.toUpper text) = fraction text := by
  cases text with
  | nil => rfl
  | cons c rest =>
    have dot : (Byte.toUpper c == Byte.dot) = (c == Byte.dot) := caseless_beq (by decide) c
    rw [Bytes.toUpper_cons, fraction_cons, fraction_cons, dot, digits_toUpper]

@[simp] theorem exponent_toUpper (text : Bytes) : exponent (Bytes.toUpper text) = exponent text := by
  cases text with
  | nil => rfl
  | cons c rest =>
    rw [Bytes.toUpper_cons, exponent_cons, exponent_cons, Byte.caseless_isExponentMark]
    simp [scale]

@[simp] theorem numberTail_toUpper (rest : Bytes) : numberTail (Bytes.toUpper rest) = numberTail rest := by
  simp [numberTail]

@[simp] theorem placeholderTail_toUpper (rest : Bytes) :
    placeholderTail (Bytes.toUpper rest) = placeholderTail rest := by
  simp [placeholderTail]

@[simp] theorem startsPlaceholder_toUpper (c : UInt8) (rest : Bytes) :
    startsPlaceholder c (Bytes.toUpper rest) = startsPlaceholder c rest := by
  have named : Caseless fun d => Byte.isWordStart d || Byte.isDigit d := fun d => by
    simp only [Byte.caseless_isWordStart d, Byte.caseless_isDigit d]
  simp [startsPlaceholder, named]

/-! ### Symbols -/

theorem plain_operators : ∀ operator ∈ operators, ∀ mark ∈ operator, Byte.isLetter mark = false := by
  have all : operators.all (·.all (!Byte.isLetter ·)) = true := rfl
  simpa using all

theorem isOperator_toUpper (text : Bytes) : isOperator (Bytes.toUpper text) = isOperator text := by
  rw [isOperator, isOperator, Bool.eq_iff_iff, List.contains_iff_mem, List.contains_iff_mem]
  constructor
  · intro member
    have same : text = Bytes.toUpper text := (Bytes.toUpper_eq_iff (plain_operators _ member)).mp rfl
    rwa [← same] at member
  · intro member
    rwa [(Bytes.toUpper_eq_iff (plain_operators _ member)).mpr rfl]

@[simp] theorem sequenceTail_toUpper (c : UInt8) (rest : Bytes) :
    sequenceTail c (Bytes.toUpper rest) = sequenceTail c rest := by
  have continues (text : Bytes) : (Bytes.toUpper text).all Byte.isContinuation = text.all Byte.isContinuation := by
    rw [Bytes.toUpper, List.all_map]
    exact congrArg text.all (funext Byte.caseless_isContinuation)
  simp [sequenceTail, continues]

@[simp] theorem symbol_toUpper (c : UInt8) (rest : Bytes) : symbol c (Bytes.toUpper rest) = symbol c rest := by
  have pairs : Caseless fun d => isOperator [c, d] := by
    intro d
    show isOperator [c, Byte.toUpper d] = isOperator [c, d]
    rw [← isOperator_toUpper, ← isOperator_toUpper [c, d]]
    simp [Byte.toUpper_toUpper]
  simp [symbol, pairs]

/-! ### Tokens -/

/-- What the scanner never takes a letter for: it always begins a word. -/
theorem apart_of_letter : ∀ c, Byte.isLetter c = true →
    Byte.isBlank c = false ∧ Byte.isBreak c = false ∧ (c == Byte.minus) = false ∧ (c == Byte.slash) = false ∧
      Byte.isQuote c = false ∧ Byte.isDigit c = false ∧ Byte.isWordStart c = true :=
  Byte.forall_of_lt (by decide +kernel)

theorem lexeme_letter (letter : Byte.isLetter c = true) (rest : Bytes) :
    lexeme c rest = ⟨.identifier, Bytes.run Byte.isWordPart rest⟩ := by
  obtain ⟨blank, ends, minus, slash, quote, digit, word⟩ := apart_of_letter c letter
  simp [lexeme, blank, ends, minus, slash, quote, digit, word]

theorem lexeme_toUpper (c : UInt8) (rest : Bytes) :
    lexeme (Byte.toUpper c) (Bytes.toUpper rest) = lexeme c rest := by
  cases letter : Byte.isLetter c with
  | true =>
    have capital : Byte.isLetter (Byte.toUpper c) = true := by rw [Byte.caseless_isLetter, letter]
    rw [lexeme_letter capital, lexeme_letter letter, Bytes.run_toUpper Byte.caseless_isWordPart]
  | false =>
    have again : Caseless (· == c) := caseless_beq letter
    have feed : Caseless (· == Byte.lf) := caseless_beq (by decide)
    have star : Caseless (· == Byte.star) := caseless_beq (by decide)
    have line : Caseless (!Byte.isBreak ·) := Byte.caseless_isBreak.not
    rw [Byte.toUpper_of_not_letter letter]
    simp [lexeme, letter, again, feed, star, line]

theorem token_toUpper (kind : TokenKind) (value : Bytes) (start : Nat) (p : Position) :
    token kind (Bytes.toUpper value) start p = (token kind value start p).toUpper := by
  have word : Keyword.lookup (Bytes.toUpper value) = Keyword.lookup value :=
    Keyword.lookup_congr (Bytes.sameWord_iff.mpr (Bytes.toUpper_toUpper value))
  simp [token, word, Token.toUpper]

theorem tokensFrom_toUpper (start : Nat) (p : Position) (text : Bytes) :
    tokensFrom start p (Bytes.toUpper text) = (tokensFrom start p text).map Token.toUpper := by
  induction text using tokenInduction generalizing start p with
  | nil => rw [Bytes.toUpper_nil, tokensFrom_nil]; rfl
  | cons c rest ih =>
    have passed := advance_toUpper p ((lexeme c rest).extra + 1) (c :: rest)
    rw [Bytes.toUpper_cons] at passed ⊢
    rw [tokensFrom_cons, tokensFrom_cons, lexeme_toUpper, passed, Bytes.drop_toUpper, ih, Bytes.take_toUpper,
      ← Bytes.toUpper_cons, token_toUpper, List.map_cons]

end Lexer

/-- The tokens of a text in upper case are those of the text, in upper case. -/
theorem tokenize_toUpper (text : Bytes) : tokenize (Bytes.toUpper text) = (tokenize text).map Token.toUpper :=
  Lexer.tokensFrom_toUpper 0 {} text

end QueryService
