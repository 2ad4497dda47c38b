import QueryService.Proofs.Token.Ends

/-!
# Unterminated literals

A diagnostic looks at the text of a token alone. It reports a string if the lexer left it open, and a
block comment if the lexer ran out of text in it (`unterminated_iff`).
-/

namespace QueryService
open Lexer

/-- The backslashes at the end of a body are paired. -/
theorem StringBody.paired {quote : UInt8} {text : Bytes} (body : StringBody quote text) (behind : Bytes)
    (even : Bytes.run (· == Byte.backslash) behind % 2 = 0) :
    Bytes.run (· == Byte.backslash) (text.reverse ++ behind) % 2 = 0 := by
  induction body generalizing behind with
  | nil => exact even
  | plain inner other single more ih =>
    rw [List.reverse_cons, List.append_assoc, List.singleton_append]
    apply ih
    rw [Bytes.run_cons, if_neg (by simpa using single)]
  | escape inner more ih =>
    rw [List.reverse_cons, List.reverse_cons, List.append_assoc, List.append_assoc, List.singleton_append,
      List.singleton_append]
    apply ih
    rw [Bytes.run_cons, Bytes.run_cons, if_pos (beq_self_eq_true _)]
    split <;> omega

namespace Literal

variable {value : Bytes}

theorem terminated_of_closed (closed : ClosedString value) : isUnterminatedString value = false := by
  obtain ⟨quote, body, quoted, whole, rfl⟩ := closed
  obtain ⟨next, later, same⟩ : ∃ next later, body ++ [quote] = next :: later := by
    cases body with
    | nil => exact ⟨quote, [], rfl⟩
    | cons next more => exact ⟨next, more ++ [quote], rfl⟩
  have paired := whole.paired [] rfl
  rw [List.append_nil] at paired
  rw [same, isUnterminatedString, quoted, ← same, List.getLast?_concat, List.dropLast_concat, paired]
  simp

/-- A string is reported if it is open. -/
theorem unterminated_of_openString (unclosed : OpenString value) : isUnterminatedString value = true := by
  obtain ⟨quote, body, quoted, whole, read⟩ := unclosed
  obtain ⟨tail, unclosed, length, rfl⟩ : ∃ tail, closes quote tail = false ∧ stringTail quote tail = tail.length ∧
      value = quote :: (body ++ tail) := by
    have other := beq_false_of_ne (quote_ne_backslash quoted)
    rcases read with rfl | rfl
    · exact ⟨[], rfl, rfl, by rw [List.append_nil]⟩
    · refine ⟨[Byte.backslash], by simp [closes, other], ?_, rfl⟩
      rw [stringTail_cons fun _ => rfl, other]
      rfl
  obtain ⟨closing, taken⟩ := whole.read tail
  have reported := unterminated_of_open quoted (closing.trans unclosed)
  rwa [taken, length, ← List.length_append, List.take_length] at reported

theorem isUnterminatedComment_closed (inner : Bytes) :
    isUnterminatedComment (ascii "/*" ++ inner ++ ascii "*/") = false := by
  have ends : (ascii "*/").isSuffixOf (ascii "/*" ++ inner ++ ascii "*/") = true :=
    List.isSuffixOf_iff_suffix.mpr (List.suffix_append _ _)
  have long : ¬ (ascii "/*" ++ inner ++ ascii "*/").length < 4 := by
    rw [List.length_append, List.length_append, show (ascii "/*").length = 2 from rfl,
      show (ascii "*/").length = 2 from rfl]
    omega
  rw [isUnterminatedComment, ends, decide_eq_false long]
  exact Bool.and_false _

theorem isUnterminatedComment_open {inner : Bytes} (absent : ¬ ascii "*/" <:+: inner) :
    isUnterminatedComment (ascii "/*" ++ inner) = true := by
  have opens : (ascii "/*").isPrefixOf (ascii "/*" ++ inner) = true :=
    List.isPrefixOf_iff_prefix.mpr (List.prefix_append _ _)
  rw [isUnterminatedComment, opens, Bool.true_and, Bool.or_eq_true, decide_eq_true_eq, Bool.not_eq_true',
    or_iff_not_imp_left]
  intro long
  -- The star of the opening is too far ahead to be part of the end mark.
  have enough : (ascii "*/").length ≤ inner.length := by
    rw [List.length_append] at long
    exact Nat.le_of_add_le_add_left (Nat.le_of_not_lt long)
  by_contra ended
  rw [Bool.not_eq_false, List.isSuffixOf_iff_suffix] at ended
  exact absent (List.suffix_of_suffix_length_le ended (List.suffix_append _ _) enough).isInfix

theorem isUnterminatedComment_line (c : UInt8) (inner : Bytes) : isUnterminatedComment (c :: c :: inner) = false := by
  have other : (ascii "/*").isPrefixOf (c :: c :: inner) = false := by
    rw [Bool.eq_false_iff]
    intro opens
    obtain ⟨rfl, star⟩ := List.cons_prefix_cons.mp (List.isPrefixOf_iff_prefix.mp opens)
    exact absurd (List.cons_prefix_cons.mp star).1 (by decide)
  rw [isUnterminatedComment, other, Bool.false_and]

end Literal

open Literal

variable {text : Bytes} {t : Token}

/-- A token that is all that is left ends with the text. -/
theorem stop_of_all (member : t ∈ tokenize text) (all : t.value = text.drop t.start) : t.stop = text.length := by
  have stop := (token_place member).2.1
  have inside := tokensFrom_bounds member
  rw [all, List.length_drop] at stop
  omega

/-- A token that ends with the text is the last one. -/
theorem last_of_stop (member : t ∈ tokenize text) (ends : t.stop = text.length) : (tokenize text).getLast? = some t := by
  obtain ⟨before, after, split⟩ := List.append_of_mem member
  cases after with
  | nil => rw [split, List.getLast?_concat]
  | cons next more =>
    have ordered := tokensFrom_ordered 0 {} text
    have later : next ∈ tokenize text := by simp [split]
    rw [← tokenize, split, List.pairwise_append, List.pairwise_cons] at ordered
    have := ordered.2.1.1 next List.mem_cons_self
    have := tokensFrom_bounds later
    omega

/-- A string token is reported if no quote closes it, and it then reaches to where its line ends. A comment token
is reported if it is a block comment without an end mark that reaches to the end of the text, and it is then the
last token. -/
theorem unterminated_iff (member : t ∈ tokenize text) :
    (t.kind = .string →
      (isUnterminatedString t.value = true ↔ OpenString t.value ∧ LineEndsAt text t.stop) ∧
        (isUnterminatedString t.value = false ↔ ClosedString t.value)) ∧
      (t.kind = .comment →
        (isUnterminatedComment t.value = true ↔
          (∃ inner, t.value = ascii "/*" ++ inner ∧ ¬ ascii "*/" <:+: inner) ∧ t.stop = text.length) ∧
        (isUnterminatedComment t.value = true → (tokenize text).getLast? = some t)) := by
  constructor
  · intro string
    rcases string_reading member string with closed | ⟨unclosed, ends⟩
    · have terminated := terminated_of_closed closed
      refine ⟨iff_of_false (by simp [terminated]) ?_, iff_of_true terminated closed⟩
      rintro ⟨unclosed, _⟩
      rw [unterminated_of_openString unclosed] at terminated
      cases terminated
    · have reported := unterminated_of_openString unclosed
      refine ⟨iff_of_true reported ⟨unclosed, ends⟩, iff_of_false (by simp [reported]) ?_⟩
      intro closed
      rw [terminated_of_closed closed] at reported
      cases reported
  · intro comment
    have reported : isUnterminatedComment t.value = true ↔
        (∃ inner, t.value = ascii "/*" ++ inner ∧ ¬ ascii "*/" <:+: inner) ∧ t.stop = text.length := by
      constructor
      · intro reported
        cases comment_reading member comment with
        | line _ again _ =>
          rw [again, isUnterminatedComment_line] at reported
          cases reported
        | closed ends _ =>
          rw [ends, isUnterminatedComment_closed] at reported
          cases reported
        | unclosed opens absent ends => exact ⟨⟨_, opens, absent⟩, stop_of_all member ends⟩
      · rintro ⟨⟨inner, value, absent⟩, _⟩
        rw [value]
        exact isUnterminatedComment_open absent
    exact ⟨reported, fun unclosed => last_of_stop member (reported.mp unclosed).2⟩

/-- A string whose last quote is escaped, and a comment whose opening star stands before a slash. -/
theorem escaped_quote_unterminated :
    let text : Bytes := ascii "'it\\'\r\n/*/"
    let quoted := token .string (ascii "'it\\'") 0 {}
    let comment := token .comment (ascii "/*/") 7 ⟨1, 0⟩
    quoted ∈ tokenize text ∧ OpenString quoted.value ∧ LineEndsAt text quoted.stop ∧ comment ∈ tokenize text ∧
      (tokenize text).getLast? = some comment := by
  intro text quoted comment
  have string : quoted ∈ tokenize text := by decide +kernel
  have last : comment ∈ tokenize text := by decide +kernel
  obtain ⟨unclosed, ends⟩ := ((unterminated_iff string).1 rfl).1.mp (by decide +kernel)
  exact ⟨string, unclosed, ends, last, ((unterminated_iff last).2 rfl).2 (by decide +kernel)⟩

end QueryService
