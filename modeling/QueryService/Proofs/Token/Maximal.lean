import QueryService.Proofs.Token.Ends
import QueryService.Proofs.Token.Number

/-!
# Longest matches

The scanners and the order in which they are tried amount to one rule: a token is the longest prefix of the
text ahead that the language of its kind has (`tokens_maximal`).
-/

namespace QueryService
open Computability

namespace Vocabulary

open Lexer

def blanks : Language UInt8 := oneOf Byte.isBlank * (oneOf Byte.isBlank)∗

def lineBreak : Language UInt8 := oneOf (· == Byte.lf) + oneOf (· == Byte.cr) * (1 + oneOf (· == Byte.lf))

def word : Language UInt8 := oneOf Byte.isWordStart * (oneOf Byte.isWordPart)∗

def isSigil (c : UInt8) : Bool := c == Byte.atSign || c == Byte.dollar

/-- A name behind either sigil, or a number behind a dollar. -/
def placeholder : Language UInt8 := oneOf isSigil * word + oneOf (· == Byte.dollar) * digits

def operator : Language UInt8 := {text | text ∈ operators}

/-- A lead between two bytes and so many continuation bytes. -/
def led (low high : UInt8) (n : Nat) : Language UInt8 :=
  oneOf (fun c => low ≤ c && c ≤ high) * oneOf Byte.isContinuation ^ n

/-- Sequences of the form of UTF-8 characters beyond ASCII. -/
def sequence : Language UInt8 := led 0xC0 0xDF 1 + led 0xE0 0xEF 2 + led 0xF0 0xF7 3

variable {c d : UInt8} {rest later tail text : Bytes}

theorem longest_word (next : nextIs Byte.isWordStart text = true) :
    Longest word text (text.take (Bytes.run Byte.isWordPart text)) := by
  cases text with
  | nil => cases next
  | cons c rest =>
    rw [nextIs_cons] at next
    rw [Bytes.run_cons, Byte.isWordPart, next, Bool.true_or, if_pos rfl]
    exact Longest.led next Byte.isWordPart rest

theorem absent_word (other : ¬ nextIs Byte.isWordStart text = true) : Absent word text := by
  cases text with
  | nil => exact Absent.nil nil_notMem_oneOf_mul
  | cons c rest => exact Absent.oneOf_mul fun start => absurd start other

theorem longest_lineBreak (ends : Byte.isBreak c = true) (rest : Bytes) :
    Longest lineBreak (c :: rest) (c :: rest.take (if c == Byte.cr && nextIs (· == Byte.lf) rest then 1 else 0)) := by
  rcases Bool.or_eq_true_iff.mp ends with feed | back
  · obtain rfl : c = Byte.lf := eq_of_beq feed
    exact (Longest.one (by rfl) rest).add_left (Absent.oneOf_mul fun back => by cases back)
  · obtain rfl : c = Byte.cr := eq_of_beq back
    have goesOn {n : Nat} (behind : Longest (1 + oneOf (· == Byte.lf)) rest (rest.take n)) :
        Longest lineBreak (Byte.cr :: rest) (Byte.cr :: rest.take n) := by
      exact (Longest.cons (by rfl) behind).add_right (Absent.single (by decide) rest)
    cases rest with
    | nil => exact goesOn (n := 0) (Longest.none (Absent.nil (by rintro ⟨_, _, same⟩; cases same)))
    | cons d later =>
      rw [nextIs_cons]
      cases feed : d == Byte.lf with
      | true => exact goesOn (n := 1) (Longest.one (p := (· == Byte.lf)) feed later).optional
      | false => exact goesOn (n := 0) (Longest.none (Absent.single (by simp [feed]) later))

theorem startsPlaceholder_cases (starts : startsPlaceholder c rest = true) :
    isSigil c = true ∧ nextIs Byte.isWordStart rest = true ∨ c = Byte.dollar ∧ nextIs Byte.isDigit rest = true := by
  cases rest with
  | nil => rw [startsPlaceholder_nil] at starts; cases starts
  | cons d later =>
    simp only [startsPlaceholder, nextIs_cons, Bool.or_eq_true, Bool.and_eq_true, beq_iff_eq, isSigil] at starts ⊢
    tauto

theorem word_or_digit (next : nextIs Byte.isDigit text = true) : ¬ nextIs Byte.isWordStart text = true := by
  cases text with
  | nil => exact nofun
  | cons d later => simp [nextIs_cons, (apart_of_digit d next).2.1]

theorem longest_placeholder (starts : startsPlaceholder c rest = true) :
    Longest placeholder (c :: rest) (c :: rest.take (placeholderTail rest)) := by
  unfold placeholderTail
  rcases startsPlaceholder_cases starts with ⟨sigil, named⟩ | ⟨rfl, numbered⟩
  · have unnumbered : ¬ nextIs Byte.isDigit rest = true := fun next => word_or_digit next named
    rw [if_neg unnumbered]
    exact (Longest.cons sigil (longest_word named)).add_left (Absent.oneOf_mul fun _ => absent_digits unnumbered)
  · have unnamed : Absent (oneOf isSigil * word) (Byte.dollar :: rest) :=
      Absent.oneOf_mul fun _ => absent_word (word_or_digit numbered)
    rw [if_pos numbered]
    exact (Longest.cons (by rfl) (longest_digits numbered)).add_right unnamed

/-! ### Operators -/

theorem length_operator (member : text ∈ operator) : text ≠ [] ∧ text.length ≤ 2 := by
  have short : ∀ text ∈ operators, text ≠ [] ∧ text.length ≤ 2 := by decide
  exact short text member

theorem mem_operator : text ∈ operator ↔ isOperator text = true := List.contains_iff_mem.symm

theorem longest_pair (pair : isOperator [c, d] = true) : Longest operator (c :: d :: later) [c, d] where
  ahead := ⟨later, rfl⟩
  member := mem_operator.mpr pair
  greatest _ _ member := (length_operator member).2

theorem longest_single (single : isOperator [c] = true) (unpaired : nextIs (fun d => isOperator [c, d]) rest = false) :
    Longest operator (c :: rest) [c] where
  ahead := ⟨rest, rfl⟩
  member := mem_operator.mpr single
  greatest other ahead member := by
    obtain ⟨inhabited, short⟩ := length_operator member
    rcases List.prefix_cons_iff.mp ahead with rfl | ⟨tail, rfl, inside⟩
    · contradiction
    · cases tail with
      | nil => exact Nat.le_refl 1
      | cons d more =>
        obtain ⟨further, rfl⟩ := inside
        obtain rfl : more = [] := List.length_eq_zero_iff.mp (by simpa using short)
        rw [List.cons_append, nextIs_cons, mem_operator.mp member] at unpaired
        cases unpaired

/-! ### Sequences -/

theorem cons_mem_sequence : c :: tail ∈ sequence ↔
    0 < tail.length ∧ Byte.sequenceLength c = tail.length + 1 ∧ ∀ d ∈ tail, Byte.isContinuation d = true := by
  have two : ∀ c : UInt8, (0xC0 ≤ c && c ≤ 0xDF) = true ↔ Byte.sequenceLength c = 2 :=
    Byte.forall_of_lt (by decide +kernel)
  have three : ∀ c : UInt8, (0xE0 ≤ c && c ≤ 0xEF) = true ↔ Byte.sequenceLength c = 3 :=
    Byte.forall_of_lt (by decide +kernel)
  have four : ∀ c : UInt8, (0xF0 ≤ c && c ≤ 0xF7) = true ↔ Byte.sequenceLength c = 4 :=
    Byte.forall_of_lt (by decide +kernel)
  have most : ∀ c, Byte.sequenceLength c ≤ 4 := Byte.forall_of_lt (by decide +kernel)
  have most := most c
  rw [sequence, led, led, led, Language.mem_add, Language.mem_add, cons_mem_oneOf_mul, cons_mem_oneOf_mul,
    cons_mem_oneOf_mul, mem_oneOf_pow, mem_oneOf_pow, mem_oneOf_pow, two, three, four]
  constructor
  · rintro ((⟨lead, size, all⟩ | ⟨lead, size, all⟩) | ⟨lead, size, all⟩) <;> exact ⟨by omega, by omega, all⟩
  · rintro ⟨some, lead, all⟩
    obtain size | size | size : tail.length = 1 ∨ tail.length = 2 ∨ tail.length = 3 := by omega
    · exact Or.inl (Or.inl ⟨by omega, by omega, all⟩)
    · exact Or.inl (Or.inr ⟨by omega, by omega, all⟩)
    · exact Or.inr ⟨by omega, by omega, all⟩

theorem nil_notMem_sequence : [] ∉ sequence := by
  rintro ((member | member) | member) <;> exact nil_notMem_oneOf_mul member

/-- A sequence that starts here has all the continuation bytes that its lead asks for. -/
theorem complete_of_sequence (ahead : text <+: c :: rest) (member : text ∈ sequence) :
    0 < Byte.sequenceLength c - 1 ∧ (rest.take (Byte.sequenceLength c - 1)).length = Byte.sequenceLength c - 1 ∧
      (rest.take (Byte.sequenceLength c - 1)).all Byte.isContinuation = true := by
  rcases List.prefix_cons_iff.mp ahead with rfl | ⟨tail, rfl, inside⟩
  · exact absurd member nil_notMem_sequence
  · obtain ⟨more, length, all⟩ := cons_mem_sequence.mp member
    rw [length, Nat.add_sub_cancel, ← List.prefix_iff_eq_take.mp inside]
    exact ⟨more, rfl, List.all_eq_true.mpr all⟩

/-- What no other scanner takes is a whole sequence, or one byte where no sequence starts. -/
theorem sequence_or_single (c : UInt8) (rest : Bytes) :
    c :: rest.take (sequenceTail c rest) ∈ sequence ∨
      (c :: rest.take (sequenceTail c rest)).length = 1 ∧ Absent sequence (c :: rest) := by
  unfold sequenceTail
  dsimp only
  split <;> rename_i whole
  · rcases Nat.eq_zero_or_pos (Byte.sequenceLength c - 1) with alone | more
    · rw [alone]
      exact Or.inr ⟨rfl, fun text ahead member => (complete_of_sequence ahead member).1.ne' alone⟩
    · refine Or.inl (cons_mem_sequence.mpr ?_)
      rw [whole.1]
      exact ⟨more, by omega, List.all_eq_true.mp whole.2⟩
  · exact Or.inr ⟨rfl, fun text ahead member => whole (complete_of_sequence ahead member).2⟩

end Vocabulary

/-! ### Tokens -/

/-- What a token of a kind may hold, for the kinds whose tokens are words of a regular language. -/
def TokenKind.language : TokenKind → Option (Language UInt8)
  | .keyword | .identifier => some Vocabulary.word
  | .whitespace => some Vocabulary.blanks
  | .newline => some Vocabulary.lineBreak
  | .number => some Vocabulary.number
  | .placeholder => some Vocabulary.placeholder
  | .operator => some Vocabulary.operator
  | .punctuation => some (oneOf Byte.isPunctuation)
  | .comment | .string | .literal | .unknown => none

/-- The value is as long as a token of the kind can be with these bytes ahead. -/
structure Maximal (kind : TokenKind) (ahead value : Bytes) : Prop where
  place : value <+: ahead
  longest : ∀ language, kind.language = some language → Longest language ahead value
  comment : kind = .comment → CommentEnd ahead value
  unknown : kind = .unknown → value ∈ Vocabulary.sequence ∨ value.length = 1 ∧ Absent Vocabulary.sequence ahead

theorem Maximal.of_longest {kind : TokenKind} {language : Language UInt8} {ahead value : Bytes}
    (named : kind.language = some language) (longest : Longest language ahead value) : Maximal kind ahead value where
  place := longest.ahead
  longest other same := by rwa [← Option.some.inj (named.symm.trans same)]
  comment := by rintro rfl; cases named
  unknown := by rintro rfl; cases named

theorem Maximal.of_scanned {kind : TokenKind} {ahead value : Bytes} (maximal : Maximal kind.scanned ahead value) :
    Maximal kind ahead value := by
  cases kind with
  | keyword => exact ⟨maximal.place, maximal.longest, nofun, nofun⟩
  | _ => exact maximal

open Lexer Vocabulary

/-- Whichever scanner is at work, it takes as much as it can. -/
theorem Lexer.Reading.maximal {c : UInt8} {rest : Bytes} {next : Lexeme} (reading : Reading c rest next) :
    Maximal next.kind (c :: rest) (c :: rest.take next.extra) := by
  have comment := reading.commentEnd
  have place : c :: rest.take next.extra <+: c :: rest := List.cons_prefix_cons.mpr ⟨rfl, List.take_prefix _ _⟩
  cases reading with
  | whitespace blank => exact Maximal.of_longest rfl (Longest.led blank Byte.isBlank rest)
  | newline ends => exact Maximal.of_longest rfl (longest_lineBreak ends rest)
  | lineComment | blockComment => exact ⟨place, nofun, comment, nofun⟩
  | string => exact ⟨place, nofun, nofun, nofun⟩
  | number digit => exact Maximal.of_longest rfl (longest_number digit rest)
  | word start => exact Maximal.of_longest rfl (Longest.led start Byte.isWordPart rest)
  | placeholder starts => exact Maximal.of_longest rfl (longest_placeholder starts)
  | symbol =>
    rcases symbol_cases c rest with
      ⟨d, later, rfl, pair, read⟩ | ⟨unpaired, ⟨mark, read⟩ | ⟨single, read⟩ | ⟨_, read⟩⟩ <;> rw [read] at place ⊢
    · exact Maximal.of_longest rfl (longest_pair pair)
    · exact Maximal.of_longest rfl (Longest.one mark rest)
    · exact Maximal.of_longest rfl (longest_single single unpaired)
    · exact ⟨place, nofun, nofun, fun _ => sequence_or_single c rest⟩

/-- Every token of a text is a longest match of its kind. -/
theorem tokens_maximal {text : Bytes} {t : Token} (member : t ∈ tokenize text) :
    Maximal t.kind (text.drop t.start) t.value := by
  obtain ⟨c, rest, next, reading, ahead, value, kind⟩ := token_reading member
  have maximal := reading.maximal
  rw [← ahead, ← value, ← kind] at maximal
  exact maximal.of_scanned

/-- A dollar before a number, and a lead of three bytes that lacks its last one. -/
theorem cut_sequence_alone :
    let text : Bytes := [0x24, 0x31, 0x61, 0xE2, 0x82, 0x00]
    let numbered := Lexer.token .placeholder [0x24, 0x31] 0 {}
    let lead := Lexer.token .unknown [0xE2] 3 ⟨0, 3⟩
    numbered ∈ tokenize text ∧ Longest placeholder text numbered.value ∧ lead ∈ tokenize text ∧
      (lead.value ∈ sequence ∨ lead.value.length = 1 ∧ Absent sequence (text.drop 3)) := by
  intro text numbered lead
  have first : numbered ∈ tokenize text := by decide +kernel
  have second : lead ∈ tokenize text := by decide +kernel
  exact ⟨first, (tokens_maximal first).longest placeholder rfl, second, (tokens_maximal second).unknown rfl⟩

end QueryService
