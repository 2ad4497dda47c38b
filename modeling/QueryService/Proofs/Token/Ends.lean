import QueryService.Proofs.Token.Lines
import QueryService.Proofs.Token.Reading
import QueryService.Proofs.Token.StringEnd

/-!
# Closed and open literals

A string reaches its closing quote or breaks off where its line ends (`string_reading`). A line comment reaches
to where its line ends, and a block comment to the first end mark behind its opening or to the end of the text
(`comment_reading`).
-/

namespace QueryService

/-- What may stand between the quotes of a string. A backslash escapes the byte behind it, and no byte breaks
the line. -/
inductive StringBody (quote : UInt8) : Bytes → Prop where
  | nil : StringBody quote []
  | plain {c : UInt8} {body : Bytes} (inner : Byte.isBreak c = false) (other : c ≠ quote) (single : c ≠ Byte.backslash)
      (more : StringBody quote body) : StringBody quote (c :: body)
  | escape {c : UInt8} {body : Bytes} (inner : Byte.isBreak c = false) (more : StringBody quote body) :
      StringBody quote (Byte.backslash :: c :: body)

/-- A whole string: its body between two quotes. -/
def ClosedString (value : Bytes) : Prop :=
  ∃ quote body, Byte.isQuote quote = true ∧ StringBody quote body ∧ value = quote :: (body ++ [quote])

/-- A string without its closing quote. Its last byte may be a backslash that escapes nothing. -/
def OpenString (value : Bytes) : Prop :=
  ∃ quote body, Byte.isQuote quote = true ∧ StringBody quote body ∧
    (value = quote :: body ∨ value = quote :: (body ++ [Byte.backslash]))

/-- The three ways in which a comment ends, by the bytes ahead where it starts. -/
inductive CommentEnd (ahead value : Bytes) : Prop where
  | line {c : UInt8} {inner : Bytes} (opens : c = Byte.minus ∨ c = Byte.slash) (again : value = c :: c :: inner)
      (ends : value = upToBreak ahead) : CommentEnd ahead value
  | closed {inner : Bytes} (ends : value = ascii "/*" ++ inner ++ ascii "*/") (first : ¬ ascii "*/" <:+: inner) :
      CommentEnd ahead value
  | unclosed {inner : Bytes} (opens : value = ascii "/*" ++ inner) (absent : ¬ ascii "*/" <:+: inner)
      (ends : value = ahead) : CommentEnd ahead value

/-- The line ends at this offset, with a break or with the text. -/
def LineEndsAt (text : Bytes) (offset : Nat) : Prop := ∀ c, text[offset]? = some c → Byte.isBreak c = true

theorem lineEndsAt_of_le {text : Bytes} {offset : Nat} (beyond : text.length ≤ offset) : LineEndsAt text offset := by
  intro c there
  rw [List.getElem?_eq_none beyond] at there
  cases there

theorem lineEndsAt_break {c : UInt8} (ends : Byte.isBreak c = true) (rest : Bytes) : LineEndsAt (c :: rest) 0 := by
  intro d there
  rwa [← Option.some.inj there]

namespace Lexer

variable {quote c : UInt8} {body rest text : Bytes}

/-! ### Strings -/

theorem closes_escape (quote next : UInt8) (rest : Bytes) :
    closes quote (Byte.backslash :: next :: rest) = (!Byte.isBreak next && closes quote rest) := rfl

theorem closes_cons (single : c ≠ Byte.backslash) (quote : UInt8) (rest : Bytes) :
    closes quote (c :: rest) = (!Byte.isBreak c && (c == quote || closes quote rest)) := by
  rw [closes]
  rintro next later rfl
  contradiction

theorem stringTail_of_closes (closed : closes quote text = true) :
    ∃ body, StringBody quote body ∧ text.take (stringTail quote text) = body ++ [quote] := by
  fun_induction closes quote text with
  | case1 => cases closed
  | case2 next rest ih =>
    obtain ⟨inner, closed⟩ := Bool.and_eq_true_iff.mp closed
    rw [Bool.not_eq_true'] at inner
    obtain ⟨body, more, taken⟩ := ih closed
    refine ⟨Byte.backslash :: next :: body, StringBody.escape inner more, ?_⟩
    rw [stringTail, inner, if_neg Bool.false_ne_true, List.take_succ_cons, List.take_succ_cons, taken]
    rfl
  | case3 c rest whole ih =>
    rw [Bool.and_eq_true, Bool.not_eq_true', Bool.or_eq_true] at closed
    obtain ⟨inner, closed⟩ := closed
    have last := single_backslash whole
    rw [stringTail_cons last, inner, if_neg Bool.false_ne_true]
    cases closing : c == quote with
    | true =>
      rw [eq_of_beq closing]
      exact ⟨[], StringBody.nil, rfl⟩
    | false =>
      obtain ⟨body, more, taken⟩ := ih (closed.resolve_left (by rw [closing]; exact Bool.false_ne_true))
      have single : c ≠ Byte.backslash := by
        intro escape
        rw [last escape] at taken
        simp [stringTail] at taken
      refine ⟨c :: body, StringBody.plain inner (ne_of_beq_false closing) single more, ?_⟩
      rw [if_neg Bool.false_ne_true, List.take_succ_cons, taken]
      rfl

theorem stringTail_of_open (unclosed : closes quote text = false) :
    ∃ body, StringBody quote body ∧
      (text.take (stringTail quote text) = body ∨ text.take (stringTail quote text) = body ++ [Byte.backslash]) ∧
      LineEndsAt text (stringTail quote text) := by
  fun_induction closes quote text with
  | case1 => exact ⟨[], StringBody.nil, Or.inl rfl, lineEndsAt_of_le (Nat.le_refl 0)⟩
  | case2 next rest ih =>
    cases inner : Byte.isBreak next with
    | true =>
      rw [stringTail, if_pos inner]
      exact ⟨[], StringBody.nil, Or.inr rfl, lineEndsAt_break inner rest⟩
    | false =>
      rw [inner] at unclosed
      obtain ⟨body, more, taken, ends⟩ := ih unclosed
      rw [stringTail, inner, if_neg Bool.false_ne_true, List.take_succ_cons, List.take_succ_cons]
      refine ⟨Byte.backslash :: next :: body, StringBody.escape inner more, ?_, ends⟩
      simpa using taken
  | case3 c rest whole ih =>
    have last := single_backslash whole
    rw [stringTail_cons last]
    cases inner : Byte.isBreak c with
    | true => exact ⟨[], StringBody.nil, Or.inl rfl, lineEndsAt_break inner rest⟩
    | false =>
      rw [inner, Bool.not_false, Bool.true_and, Bool.or_eq_false_iff] at unclosed
      obtain ⟨other, unclosed⟩ := unclosed
      rw [if_neg Bool.false_ne_true, other, if_neg Bool.false_ne_true, List.take_succ_cons]
      obtain ⟨body, more, taken, ends⟩ := ih unclosed
      by_cases escape : c = Byte.backslash
      · rw [escape, last escape]
        exact ⟨[], StringBody.nil, Or.inr rfl, lineEndsAt_of_le (Nat.le_refl 1)⟩
      · refine ⟨c :: body, StringBody.plain inner (ne_of_beq_false other) escape more, ?_, ends⟩
        simpa using taken

/-! ### Block comments -/

/-- A block comment takes the text up to the first end mark and that mark, or all of a text that has none. -/
theorem blockCommentTail_cases (text : Bytes) :
    (∃ inner, text.take (blockCommentTail text) = inner ++ ascii "*/" ∧ ¬ ascii "*/" <:+: inner) ∨
      blockCommentTail text = text.length ∧ ¬ ascii "*/" <:+: text := by
  fun_induction blockCommentTail text with
  | case1 => exact Or.inr ⟨rfl, by decide⟩
  | case2 rest => exact Or.inl ⟨[], rfl, by decide⟩
  | case3 c rest unended ih =>
    -- No end mark begins with `c`, so one that stands in the longer text stands behind it.
    have behind {part : Bytes} (ahead : part <+: rest) (found : ascii "*/" <:+: c :: part) : ascii "*/" <:+: part := by
      rcases List.infix_cons_iff.mp found with here | later
      · obtain ⟨rfl, slash⟩ := List.cons_prefix_cons.mp here
        obtain ⟨more, split⟩ := slash.trans ahead
        exact (unended more rfl split.symm).elim
      · exact later
    rw [List.take_succ_cons, List.length_cons]
    rcases ih with ⟨inner, taken, absent⟩ | ⟨all, absent⟩
    · refine Or.inl ⟨c :: inner, by rw [taken]; rfl, fun found => absent (behind ?_ found)⟩
      have part : inner ++ ascii "*/" <+: rest := by
        rw [← taken]
        exact List.take_prefix _ _
      exact (List.prefix_append _ _).trans part
    · exact Or.inr ⟨by rw [all], fun found => absent (behind (List.prefix_refl rest) found)⟩

end Lexer

open Lexer

variable {text : Bytes} {t : Token}

/-- A string is read through its body. -/
theorem StringBody.read {quote : UInt8} (body : StringBody quote text) (rest : Bytes) :
    closes quote (text ++ rest) = closes quote rest ∧
      stringTail quote (text ++ rest) = text.length + stringTail quote rest := by
  induction body with
  | nil => simp
  | plain inner other single more ih =>
    rw [List.cons_append, closes_cons single, stringTail_cons (absurd · single), inner, beq_false_of_ne other, ih.1,
      ih.2, List.length_cons]
    exact ⟨rfl, by simp; omega⟩
  | escape inner more ih =>
    rw [List.cons_append, List.cons_append, closes_escape, stringTail_escape, inner, ih.1, ih.2, List.length_cons,
      List.length_cons]
    exact ⟨rfl, by simp; omega⟩

/-- How a string token ends: closed, or open where its line ends. -/
theorem string_reading (member : t ∈ tokenize text) (string : t.kind = .string) :
    ClosedString t.value ∨ OpenString t.value ∧ LineEndsAt text t.stop := by
  obtain ⟨quote, rest, next, reading, ahead, value, kind⟩ := token_reading member
  rw [string] at kind
  obtain ⟨quoted, length⟩ := reading.of_string kind.symm
  rw [length] at value
  cases closed : closes quote rest with
  | true =>
    obtain ⟨body, whole, taken⟩ := stringTail_of_closes closed
    exact Or.inl ⟨quote, body, quoted, whole, by rw [value, taken]⟩
  | false =>
    obtain ⟨body, whole, taken, ends⟩ := stringTail_of_open closed
    refine Or.inr ⟨⟨quote, body, quoted, whole, ?_⟩, ?_⟩
    · rw [value]
      exact taken.imp (by rintro rfl; rfl) (by intro same; rw [same])
    · have stop := (token_place member).2.1
      rw [value, List.length_cons, List.length_take, Nat.min_eq_left ((settled_stringTail quote).le rest)] at stop
      intro c there
      rw [stop, ← List.getElem?_drop, ahead, List.getElem?_cons_succ] at there
      exact ends c there

theorem Lexer.Reading.commentEnd {c : UInt8} {rest : Bytes} {next : Lexeme} (reading : Reading c rest next)
    (comment : next.kind = .comment) : CommentEnd (c :: rest) (c :: rest.take next.extra) := by
  rcases reading.of_comment comment with ⟨inner, opens, again, length⟩ | ⟨later, rfl, rfl, length⟩
  · obtain ⟨later, rfl⟩ := List.head?_eq_some_iff.mp again
    have again : (c :: later).take next.extra = c :: later.take (Bytes.run (!Byte.isBreak ·) later) := by
      rw [length, Bytes.run_cons, inner, if_pos (by rfl), List.take_succ_cons]
    refine CommentEnd.line opens (congrArg _ again) ?_
    rw [upToBreak_inner inner, upToBreak_eq_take, length]
  · rw [length, Nat.add_comm, List.take_succ_cons]
    rcases blockCommentTail_cases later with ⟨inner, taken, absent⟩ | ⟨all, absent⟩
    · rw [taken]
      exact CommentEnd.closed rfl absent
    · rw [all, List.take_length]
      exact CommentEnd.unclosed rfl absent rfl

theorem comment_reading (member : t ∈ tokenize text) (comment : t.kind = .comment) :
    CommentEnd (text.drop t.start) t.value := by
  obtain ⟨c, rest, next, reading, ahead, value, kind⟩ := token_reading member
  rw [comment] at kind
  rw [ahead, value]
  exact reading.commentEnd kind.symm

end QueryService
