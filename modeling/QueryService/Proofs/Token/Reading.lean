import QueryService.Proofs.Token.Tiling

/-!
# How the next token is read

The bytes ahead decide which scanner reads the next token, and each scanner gives a token of one kind
(`lexeme_reading`).
-/

namespace QueryService
namespace Lexer

/-- Which scanner reads the token that starts with `c`, and what it gives. -/
inductive Reading (c : UInt8) (rest : Bytes) : Lexeme → Prop where
  | whitespace (blank : Byte.isBlank c = true) : Reading c rest ⟨.whitespace, Bytes.run Byte.isBlank rest⟩
  | newline (ends : Byte.isBreak c = true) :
      Reading c rest ⟨.newline, if c == Byte.cr && nextIs (· == Byte.lf) rest then 1 else 0⟩
  | lineComment {later : Bytes} (inner : Byte.isBreak c = false) (opens : c = Byte.minus ∨ c = Byte.slash)
      (again : rest = c :: later) : Reading c rest ⟨.comment, Bytes.run (!Byte.isBreak ·) rest⟩
  | blockComment {later : Bytes} (opens : c = Byte.slash) (star : rest = Byte.star :: later) :
      Reading c rest ⟨.comment, 1 + blockCommentTail later⟩
  | string (quoted : Byte.isQuote c = true) : Reading c rest ⟨.string, stringTail c rest⟩
  | number (digit : Byte.isDigit c = true) : Reading c rest ⟨.number, numberTail rest⟩
  | word (start : Byte.isWordStart c = true) : Reading c rest ⟨.identifier, Bytes.run Byte.isWordPart rest⟩
  | placeholder (starts : startsPlaceholder c rest = true) : Reading c rest ⟨.placeholder, placeholderTail rest⟩
  | symbol (visible : Byte.isSpace c = false) (unquoted : Byte.isQuote c = false)
      (noLine : ((c == Byte.minus || c == Byte.slash) && nextIs (· == c) rest) = false)
      (noBlock : (c == Byte.slash && nextIs (· == Byte.star) rest) = false) (noDigit : Byte.isDigit c = false)
      (noWord : Byte.isWordStart c = false) (noSigil : startsPlaceholder c rest = false) :
      Reading c rest (symbol c rest)

theorem lexeme_reading (c : UInt8) (rest : Bytes) : Reading c rest (lexeme c rest) := by
  unfold lexeme
  split <;> rename_i blank
  · exact Reading.whitespace blank
  split <;> rename_i ends
  · exact Reading.newline ends
  rw [Bool.not_eq_true] at blank ends
  split <;> rename_i line
  · rw [Bool.and_eq_true, Bool.or_eq_true, beq_iff_eq, beq_iff_eq] at line
    cases rest with
    | nil => cases line.2
    | cons d later =>
      obtain rfl : d = c := eq_of_beq line.2
      exact Reading.lineComment ends line.1 rfl
  split <;> rename_i block
  · rw [Bool.and_eq_true, beq_iff_eq] at block
    cases rest with
    | nil => cases block.2
    | cons d later =>
      obtain rfl : d = Byte.star := eq_of_beq block.2
      exact Reading.blockComment block.1 rfl
  split <;> rename_i quote
  · exact Reading.string quote
  split <;> rename_i digit
  · exact Reading.number digit
  split <;> rename_i word
  · exact Reading.word word
  split <;> rename_i sigil
  · exact Reading.placeholder sigil
  rw [Bool.not_eq_true] at line block quote digit word sigil
  exact Reading.symbol (by rw [Byte.isSpace, blank, ends]; rfl) quote line block digit word sigil

theorem symbol_cases (c : UInt8) (rest : Bytes) :
    (∃ d later, rest = d :: later ∧ isOperator [c, d] = true ∧ symbol c rest = ⟨.operator, 1⟩) ∨
      nextIs (fun d => isOperator [c, d]) rest = false ∧
        (Byte.isPunctuation c = true ∧ symbol c rest = ⟨.punctuation, 0⟩ ∨
          isOperator [c] = true ∧ symbol c rest = ⟨.operator, 0⟩ ∨
          isOperator [c] = false ∧ symbol c rest = ⟨.unknown, sequenceTail c rest⟩) := by
  unfold symbol
  split <;> rename_i pair
  · cases rest with
    | nil => cases pair
    | cons d later => exact Or.inl ⟨d, later, rfl, pair, rfl⟩
  · rw [Bool.not_eq_true] at pair
    refine Or.inr ⟨pair, ?_⟩
    split <;> rename_i punctuation
    · exact Or.inl ⟨punctuation, rfl⟩
    · split <;> rename_i operator
      · exact Or.inr (Or.inl ⟨operator, rfl⟩)
      · exact Or.inr (Or.inr ⟨Bool.eq_false_iff.mpr operator, rfl⟩)

theorem symbol_kind (c : UInt8) (rest : Bytes) :
    (symbol c rest).kind ∈ [TokenKind.operator, TokenKind.punctuation, TokenKind.unknown] := by
  rcases symbol_cases c rest with ⟨_, _, _, _, read⟩ | ⟨_, ⟨_, read⟩ | ⟨_, read⟩ | ⟨_, read⟩⟩ <;> rw [read] <;> simp

namespace Reading

variable {c : UInt8} {rest : Bytes} {next : Lexeme} (reading : Reading c rest next)
include reading

theorem of_string (kind : next.kind = .string) : Byte.isQuote c = true ∧ next.extra = stringTail c rest := by
  cases reading with
  | string quoted => exact ⟨quoted, rfl⟩
  | symbol => exact absurd (kind ▸ symbol_kind c rest) (by decide)
  | _ => cases kind

theorem of_number (kind : next.kind = .number) : Byte.isDigit c = true ∧ next.extra = numberTail rest := by
  cases reading with
  | number digit => exact ⟨digit, rfl⟩
  | symbol => exact absurd (kind ▸ symbol_kind c rest) (by decide)
  | _ => cases kind

theorem of_comment (kind : next.kind = .comment) :
    Byte.isBreak c = false ∧ (c = Byte.minus ∨ c = Byte.slash) ∧ rest.head? = some c ∧
        next.extra = Bytes.run (!Byte.isBreak ·) rest ∨
      ∃ later, c = Byte.slash ∧ rest = Byte.star :: later ∧ next.extra = 1 + blockCommentTail later := by
  cases reading with
  | lineComment inner opens again => exact Or.inl ⟨inner, opens, by rw [again]; rfl, rfl⟩
  | blockComment opens star => exact Or.inr ⟨_, opens, star, rfl⟩
  | symbol => exact absurd (kind ▸ symbol_kind c rest) (by decide)
  | _ => cases kind

end Reading
end Lexer

/-- The kind that a scanner gives, which knows no keywords. -/
def TokenKind.scanned : TokenKind → TokenKind
  | .keyword => .identifier
  | kind => kind

namespace Lexer

theorem scanned_token {kind : TokenKind} (plain : kind ≠ .keyword) (value : Bytes) (start : Nat) (p : Position) :
    (token kind value start p).kind.scanned = kind := by
  have other : kind.scanned = kind := by
    cases kind <;> first | rfl | contradiction
  by_cases word : kind = .identifier
  · cases found : Keyword.lookup value <;> simp [token, word, found, TokenKind.scanned]
  · simp [token, word, other]

end Lexer

open Lexer

/-- How a token of a text is read from the bytes ahead. -/
theorem token_reading {text : Bytes} {t : Token} (member : t ∈ tokenize text) :
    ∃ c rest next, Reading c rest next ∧ text.drop t.start = c :: rest ∧ t.value = c :: rest.take next.extra ∧
      t.kind.scanned = next.kind := by
  obtain ⟨n, c, rest, _, ahead, rfl⟩ := mem_tokensFrom member
  refine ⟨c, rest, lexeme c rest, lexeme_reading c rest, ?_, rfl, scanned_token (lexeme_ne_keyword c rest) _ _ _⟩
  rw [start_token, Nat.zero_add, ahead]

end QueryService
