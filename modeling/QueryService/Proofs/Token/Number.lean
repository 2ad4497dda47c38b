import QueryService.Diagnostic.Literal
import QueryService.Proofs.Longest
import QueryService.Proofs.Text.Case
import QueryService.Proofs.Token.Reading

/-!
# Numbers

A number is read twice: the lexer takes the longest decimal ahead and the word that touches it, and a
diagnostic reads the token again to tell whether it is a decimal and nothing else. Both agree with one
regular language (`numbers_recognized`).
-/

namespace QueryService
open Computability

namespace Vocabulary

open Lexer

def digits : Language UInt8 := oneOf Byte.isDigit * (oneOf Byte.isDigit)∗

def fraction : Language UInt8 := oneOf (· == Byte.dot) * digits

def exponent : Language UInt8 := oneOf Byte.isExponentMark * ((1 + oneOf Byte.isSign) * digits)

/-- Digits, and then a fraction and an exponent, each of which may be left out. -/
def decimal : Language UInt8 := digits * (1 + fraction) * (1 + exponent)

/-- The texts of number tokens: decimals, and those that run into a word. -/
def number : Language UInt8 := decimal * (oneOf Byte.isWordPart)∗

theorem mem_digits {text : Bytes} : text ∈ digits ↔ text ≠ [] ∧ ∀ c ∈ text, Byte.isDigit c = true := by
  cases text with
  | nil => simp [digits, nil_notMem_oneOf_mul]
  | cons c rest => simp [digits, cons_mem_oneOf_mul, mem_run]

theorem digit_of_mem_digits {c : UInt8} {rest : Bytes} (member : c :: rest ∈ digits) : Byte.isDigit c = true :=
  (mem_digits.mp member).2 c List.mem_cons_self

theorem bytes_fraction {text : Bytes} (member : text ∈ fraction) :
    ∀ c ∈ text, c = Byte.dot ∨ Byte.isDigit c = true := by
  cases text with
  | nil => simp
  | cons d rest =>
    obtain ⟨dot, more⟩ := cons_mem_oneOf_mul.mp member
    simp only [List.forall_mem_cons]
    exact ⟨Or.inl (eq_of_beq dot), fun c inside => Or.inr ((mem_digits.mp more).2 c inside)⟩

/-! ### The longest parts of a number -/

theorem longest_digits {text : Bytes} (next : nextIs Byte.isDigit text = true) :
    Longest digits text (text.take (Bytes.run Byte.isDigit text)) := by
  cases text with
  | nil => cases next
  | cons c rest =>
    rw [nextIs_cons] at next
    rw [Bytes.run_cons, if_pos next]
    exact Longest.led next Byte.isDigit rest

theorem absent_digits {text : Bytes} (other : ¬ nextIs Byte.isDigit text = true) : Absent digits text := by
  cases text with
  | nil => exact Absent.nil nil_notMem_oneOf_mul
  | cons c rest => exact Absent.oneOf_mul fun digit => absurd digit other

theorem longest_fraction (text : Bytes) : Longest (1 + fraction) text (text.take (Lexer.fraction text)) := by
  cases text with
  | nil => exact Longest.none (Absent.nil nil_notMem_oneOf_mul)
  | cons c rest =>
    rw [fraction_cons]
    split <;> rename_i dot
    · unfold Lexer.digits
      split <;> rename_i next
      · exact (Longest.cons_take (p := (· == Byte.dot)) dot (longest_digits next)).optional
      · exact Longest.none (Absent.oneOf_mul fun _ => absent_digits next)
    · exact Longest.none (Absent.oneOf_mul fun same => absurd same dot)

theorem signed_digits : (1 + oneOf Byte.isSign) * digits = digits + oneOf Byte.isSign * digits := by
  rw [add_mul, one_mul]

theorem absent_signed {text : Bytes} (other : nextIs Byte.isSign text = false) :
    Absent (oneOf Byte.isSign * digits) text := by
  cases text with
  | nil => exact Absent.nil nil_notMem_oneOf_mul
  | cons c rest => exact Absent.oneOf_mul fun sign => absurd (sign.symm.trans other) Bool.noConfusion

/-- What the scanner never takes a digit for. -/
theorem apart_of_digit : ∀ c, Byte.isDigit c = true →
    Byte.isSign c = false ∧ Byte.isWordStart c = false ∧ Byte.isBlank c = false ∧ Byte.isBreak c = false ∧
      (c == Byte.minus) = false ∧ (c == Byte.slash) = false ∧ Byte.isQuote c = false :=
  Byte.forall_of_lt (by decide +kernel)

theorem unsigned_of_digit {c : UInt8} (digit : Byte.isDigit c = true) : Byte.isSign c = false :=
  (apart_of_digit c digit).1

theorem nextIs_unsigned {text : Bytes} (next : nextIs Byte.isDigit text = true) :
    nextIs Byte.isSign text = false := by
  cases text with
  | nil => rfl
  | cons c rest => exact unsigned_of_digit next

/-- What stands behind the mark of an exponent, or that nothing fits there. -/
theorem scale_spec (text : Bytes) :
    scale text = 0 ∧ Absent ((1 + oneOf Byte.isSign) * digits) text ∨
      ∃ n, scale text = 1 + n ∧ Longest ((1 + oneOf Byte.isSign) * digits) text (text.take n) := by
  rw [signed_digits]
  unfold scale Lexer.digits
  split <;> rename_i next
  · exact Or.inr ⟨_, rfl, (longest_digits next).add_left (absent_signed (nextIs_unsigned next))⟩
  · have unsigned := absent_digits next
    split <;> rename_i sign
    · cases text with
      | nil => cases sign
      | cons c later =>
        rw [List.tail_cons]
        split <;> rename_i goesOn
        · have signed := Longest.cons_take (p := Byte.isSign) sign (longest_digits goesOn)
          exact Or.inr ⟨_, Nat.add_assoc 1 1 _, signed.add_right unsigned⟩
        · exact Or.inl ⟨rfl, unsigned.add (Absent.oneOf_mul fun _ => absent_digits goesOn)⟩
    · exact Or.inl ⟨rfl, unsigned.add (absent_signed (Bool.eq_false_iff.mpr sign))⟩

theorem longest_exponent (text : Bytes) : Longest (1 + exponent) text (text.take (Lexer.exponent text)) := by
  cases text with
  | nil => exact Longest.none (Absent.nil nil_notMem_oneOf_mul)
  | cons c rest =>
    rw [exponent_cons]
    split <;> rename_i mark
    · rcases scale_spec rest with ⟨none, absent⟩ | ⟨n, length, longest⟩
      · rw [none]
        exact Longest.none (Absent.oneOf_mul fun _ => absent)
      · rw [length]
        exact (Longest.cons_take mark longest).optional
    · exact Longest.none (Absent.oneOf_mul fun same => absurd same mark)

/-! ### Decimals and numbers -/

/-- The length of a decimal after its first digit. -/
def decimalTail (rest : Bytes) : Nat :=
  let whole := Bytes.run Byte.isDigit rest
  let fractional := whole + Lexer.fraction (rest.drop whole)
  fractional + Lexer.exponent (rest.drop fractional)

theorem numberTail_eq (rest : Bytes) :
    numberTail rest = decimalTail rest + Bytes.run Byte.isWordPart (rest.drop (decimalTail rest)) := rfl

theorem settled_decimalTail : Settled decimalTail :=
  ((Settled.run Byte.isDigit).add settled_fraction).add settled_exponent

theorem separated_digits {p : UInt8 → Bool} (disjoint : ∀ c, p c = true → Byte.isDigit c = false)
    (behind : Language UInt8) : Separated digits (oneOf p * behind) :=
  Separated.of_class (fun _ member => (mem_digits.mp member).2) disjoint

theorem separated_dot (behind : Language UInt8) : Separated digits (oneOf (· == Byte.dot) * behind) := by
  refine separated_digits (fun c dot => ?_) behind
  rw [eq_of_beq dot]
  rfl

theorem apart_of_mark (c : UInt8) (mark : Byte.isExponentMark c = true) :
    (Byte.isDigit c || c == Byte.dot) = false := by
  rw [Byte.isExponentMark, Bool.or_eq_true, beq_iff_eq, beq_iff_eq] at mark
  rcases mark with rfl | rfl <;> rfl

theorem separated_mark (behind : Language UInt8) : Separated digits (oneOf Byte.isExponentMark * behind) :=
  separated_digits (fun c mark => (Bool.or_eq_false_iff.mp (apart_of_mark c mark)).1) behind

theorem separated_fraction : Separated digits (1 + fraction) := (separated_dot digits).optional

theorem separated_exponent : Separated (digits * (1 + fraction)) (1 + exponent) := by
  have made : ∀ text ∈ digits * (1 + fraction), ∀ c ∈ text, (Byte.isDigit c || c == Byte.dot) = true := by
    intro text member c inside
    obtain ⟨whole, first, part, more, rfl⟩ := Language.mem_mul.mp member
    rw [Bool.or_eq_true, beq_iff_eq]
    rcases List.mem_append.mp inside with inside | inside
    · exact Or.inl ((mem_digits.mp first).2 c inside)
    · rcases more with none | more
      · rw [(Language.mem_one part).mp none] at inside
        cases inside
      · exact (bytes_fraction more c inside).symm
  exact (Separated.of_class made apart_of_mark).optional

variable {c : UInt8} (digit : Byte.isDigit c = true) (rest : Bytes)
include digit

theorem longest_decimal : Longest decimal (c :: rest) ((c :: rest).take (decimalTail rest + 1)) := by
  have whole : Longest digits (c :: rest) ((c :: rest).take (Bytes.run Byte.isDigit rest + 1)) := by
    have longest : Longest digits (c :: rest) _ := longest_digits digit
    rwa [Bytes.run_cons, if_pos digit] at longest
  exact Longest.mul_cons separated_exponent (Longest.mul_cons separated_fraction whole (longest_fraction _))
    (longest_exponent _)

theorem longest_number : Longest number (c :: rest) (c :: rest.take (numberTail rest)) := by
  have le := settled_decimalTail.le rest
  have longest := (longest_decimal digit rest).mul_run (by simpa using le) Byte.isWordPart
  rw [List.drop_succ_cons, Nat.add_right_comm, ← numberTail_eq] at longest
  exact longest

end Vocabulary

/-! ### The reading of a diagnostic -/

namespace Literal

open Vocabulary
open Lexer (nextIs run_pos)

theorem afterDigits?_bind_iff {next : Bytes → Option Bytes} {behind : Language UInt8}
    (recognizes : ∀ rest, next rest = some [] ↔ rest ∈ behind) (separated : Separated digits behind) (text : Bytes) :
    (afterDigits? text >>= next) = some [] ↔ text ∈ digits * behind := by
  constructor
  · intro read
    unfold afterDigits? at read
    split at read <;> rename_i first
    · rw [Language.mem_mul]
      refine ⟨text.takeWhile Byte.isDigit, mem_digits.mpr ⟨?_, fun c inside => ?_⟩,
        text.dropWhile Byte.isDigit, (recognizes _).mp read, List.takeWhile_append_dropWhile⟩
      · have inhabited := run_pos first
        intro none
        rw [Bytes.run, none] at inhabited
        cases inhabited
      · exact List.all_eq_true.mp List.all_takeWhile c inside
    · cases read
  · rw [Language.mem_mul]
    rintro ⟨whole, begins, rest, goesOn, rfl⟩
    obtain ⟨nonempty, all⟩ := mem_digits.mp begins
    have first : nextIs Byte.isDigit (whole ++ rest) = true := by
      cases whole with
      | nil => contradiction
      | cons c more => exact all c List.mem_cons_self
    have stops : rest.dropWhile Byte.isDigit = rest := by
      cases rest with
      | nil => rfl
      | cons c more =>
        have other : ¬ Byte.isDigit c = true := fun digit =>
          separated c more goesOn [c] (mem_digits.mpr (by simpa using digit)) List.mem_cons_self
        rw [List.dropWhile_cons, if_neg other]
    rw [afterDigits?, if_pos first, List.dropWhile_append_of_pos all, stops]
    exact (recognizes rest).mpr goesOn

theorem afterDigits?_iff (text : Bytes) : afterDigits? text = some [] ↔ text ∈ digits := by
  have ending : ∀ rest : Bytes, some rest = some [] ↔ rest ∈ (1 : Language UInt8) := by simp
  have alone := afterDigits?_bind_iff ending (by simp [Separated]) text
  rwa [mul_one, Option.bind_eq_bind, Option.bind_fun_some] at alone

theorem afterExponent?_iff (text : Bytes) : afterExponent? text = some [] ↔ text ∈ 1 + exponent := by
  cases text with
  | nil => exact iff_of_true rfl (Or.inl rfl)
  | cons c rest =>
    rw [Language.mem_add, Language.mem_one, or_iff_right (List.cons_ne_nil c rest), exponent, signed_digits,
      cons_mem_oneOf_mul, Language.mem_add, afterExponent?]
    cases mark : Byte.isExponentMark c with
    | false => simp
    | true =>
      rw [Bool.not_true, if_neg Bool.false_ne_true]
      split <;> rename_i sign
      · cases rest with
        | nil => cases sign
        | cons d later =>
          have unsigned : d :: later ∉ digits := fun member => by
            have other := unsigned_of_digit (digit_of_mem_digits member)
            rw [show Byte.isSign d = true from sign] at other
            cases other
          rw [List.tail_cons, afterDigits?_iff, cons_mem_oneOf_mul, or_iff_right unsigned]
          simp [show Byte.isSign d = true from sign]
      · have unsigned : rest ∉ oneOf Byte.isSign * digits :=
          absent_signed (Bool.eq_false_iff.mpr sign) rest (List.prefix_refl rest)
        rw [afterDigits?_iff, or_iff_left unsigned]
        simp

/-- What may stand behind the first digits of a decimal. -/
theorem scaled_eq : (1 + fraction) * (1 + exponent) =
    1 + exponent + oneOf (· == Byte.dot) * (digits * (1 + exponent)) := by
  rw [add_mul, one_mul, fraction, mul_assoc]

theorem separated_scaled : Separated digits (1 + exponent) ∧ Separated digits ((1 + fraction) * (1 + exponent)) := by
  have unscaled : Separated digits (1 + exponent) := (separated_mark _).optional
  refine ⟨unscaled, ?_⟩
  rw [scaled_eq]
  exact unscaled.add (separated_dot _)

theorem afterFraction?_iff (text : Bytes) :
    (afterFraction? text >>= afterExponent?) = some [] ↔ text ∈ (1 + fraction) * (1 + exponent) := by
  rw [scaled_eq, Language.mem_add]
  cases text with
  | nil => exact iff_of_true rfl (Or.inl (Or.inl rfl))
  | cons c rest =>
    rw [cons_mem_oneOf_mul]
    cases dot : c == Byte.dot with
    | true =>
      have whole : c :: rest ∉ 1 + exponent := by
        rw [eq_of_beq dot]
        rintro (none | member)
        · cases none
        · exact absurd (cons_mem_oneOf_mul.mp member).1 (by decide)
      rw [or_iff_right whole, eq_of_beq dot, ← afterDigits?_bind_iff afterExponent?_iff separated_scaled.1]
      exact (and_iff_right rfl).symm
    | false =>
      have read : afterFraction? (c :: rest) = some (c :: rest) := by
        rw [afterFraction?]
        rintro later same
        rw [(List.cons.inj same).1] at dot
        cases dot
      rw [read, ← afterExponent?_iff]
      simp

/-- A number is well formed if it is a decimal. -/
theorem isInvalidNumber_eq_false_iff (text : Bytes) : isInvalidNumber text = false ↔ text ∈ decimal := by
  rw [isInvalidNumber, bne_eq_false_iff_eq, decimal, mul_assoc,
    ← afterDigits?_bind_iff afterFraction?_iff separated_scaled.2, bind_assoc]

end Literal

/-! ### Number tokens -/

namespace Lexer

theorem lexeme_digit {c : UInt8} (digit : Byte.isDigit c = true) (rest : Bytes) :
    lexeme c rest = ⟨.number, numberTail rest⟩ := by
  obtain ⟨-, -, blank, ends, minus, slash, quote⟩ := Vocabulary.apart_of_digit c digit
  simp [lexeme, blank, ends, minus, slash, quote, digit]

end Lexer

open Lexer (numberTail)

variable {text : Bytes} {t : Token}

theorem number_reading (member : t ∈ tokenize text) (number : t.kind = .number) :
    ∃ c rest, Byte.isDigit c = true ∧ text.drop t.start = c :: rest ∧ t.value = c :: rest.take (numberTail rest) := by
  obtain ⟨c, rest, next, reading, ahead, value, kind⟩ := token_reading member
  rw [number] at kind
  obtain ⟨digit, length⟩ := reading.of_number kind.symm
  rw [length] at value
  exact ⟨c, rest, digit, ahead, value⟩

theorem tokenize_decimal (member : text ∈ Vocabulary.decimal) :
    tokenize text = [Lexer.token .number text 0 {}] := by
  obtain ⟨c, rest, rfl, digit⟩ : ∃ c rest, text = c :: rest ∧ Byte.isDigit c = true := by
    obtain ⟨_, ⟨whole, begins, _, _, rfl⟩, _, _, rfl⟩ := member
    obtain ⟨nonempty, all⟩ := Vocabulary.mem_digits.mp begins
    cases whole with
    | nil => contradiction
    | cons c more => exact ⟨c, _, rfl, all c List.mem_cons_self⟩
  have numeric : c :: rest ∈ Vocabulary.number := by
    rw [← List.append_nil (c :: rest)]
    exact Language.append_mem_mul member (Language.nil_mem_kstar _)
  have taken : rest.take (numberTail rest) = rest :=
    (List.cons.inj ((Vocabulary.longest_number digit rest).eq_of_mem numeric)).2
  have nothing : rest.drop (numberTail rest) = [] := List.drop_eq_nil_of_le (List.take_eq_self_iff rest |>.mp taken)
  rw [tokenize, Lexer.tokensFrom_cons, Lexer.lexeme_digit digit]
  dsimp only
  rw [taken, nothing, Lexer.tokensFrom_nil]

/-- A text is a single well-formed number if it is a decimal. A number token is the longest decimal ahead with
the word that touches it, and it is well formed if there is no such word. -/
theorem numbers_recognized (text : Bytes) :
    ((∃ t, tokenize text = [t] ∧ t.kind = .number ∧ Literal.isInvalidNumber t.value = false) ↔
        text ∈ Vocabulary.decimal) ∧
      ∀ t ∈ tokenize text, t.kind = .number → ∃ literal further, t.value = literal ++ further ∧
        Longest Vocabulary.decimal (text.drop t.start) literal ∧ (∀ c ∈ further, Byte.isWordPart c = true) ∧
        (Literal.isInvalidNumber t.value = true ↔ further ≠ []) := by
  constructor
  · constructor
    · rintro ⟨t, single, _, valid⟩
      have whole := Lexer.flatMap_value_tokensFrom 0 {} text
      rw [← tokenize, single, List.flatMap_singleton] at whole
      rwa [whole, Literal.isInvalidNumber_eq_false_iff] at valid
    · intro member
      refine ⟨_, tokenize_decimal member, rfl, ?_⟩
      exact (Literal.isInvalidNumber_eq_false_iff text).mpr member
  · intro t member number
    obtain ⟨c, rest, digit, ahead, value⟩ := number_reading member number
    have longest := Vocabulary.longest_decimal digit rest
    rw [List.take_succ_cons, ← ahead] at longest
    rw [Vocabulary.numberTail_eq, List.take_add, ← List.cons_append] at value
    refine ⟨_, _, value, longest, fun d => Bytes.mem_take_run, ?_⟩
    generalize further : (rest.drop (Vocabulary.decimalTail rest)).take _ = word at value
    constructor
    · rintro invalid rfl
      rw [value, List.append_nil, (Literal.isInvalidNumber_eq_false_iff _).mpr longest.member] at invalid
      cases invalid
    · intro goesOn
      by_contra valid
      rw [Bool.not_eq_true, Literal.isInvalidNumber_eq_false_iff] at valid
      have shorter := longest.greatest t.value (token_place member).1 valid
      rw [value, List.length_append] at shorter
      exact goesOn (List.length_eq_zero_iff.mp (by omega))

/-- An exponent without digits runs into the number, and the number is flagged. -/
theorem empty_exponent_flagged :
    let text : Bytes := ascii "x=1.5e+"
    let number := Lexer.token .number (ascii "1.5e") 2 ⟨0, 2⟩
    number ∈ tokenize text ∧ ∃ literal further, number.value = literal ++ further ∧
      Longest Vocabulary.decimal (text.drop 2) literal ∧ further ≠ [] := by
  intro text number
  have member : number ∈ tokenize text := by decide +kernel
  obtain ⟨literal, further, split, longest, _, flagged⟩ := (numbers_recognized text).2 number member rfl
  exact ⟨member, literal, further, split, longest, flagged.mp (by decide +kernel)⟩

end QueryService
