import QueryService.Diagnostic.Literal
import QueryService.Proofs.Text.Bytes
import QueryService.Proofs.Token.Lexeme

/-!
# How a string ends

The lexer closes a string as it reads; a diagnostic looks back from its last byte and counts
backslashes. Both readings agree: a string that is not closed is reported as unterminated.
-/

namespace QueryService
namespace Lexer

/-- Whether the string that is open where this text begins reaches its closing quote. -/
def closes (quote : UInt8) : Bytes → Bool
  | [] => false
  | Byte.backslash :: next :: rest => !Byte.isBreak next && closes quote rest
  | c :: rest => !Byte.isBreak c && (c == quote || closes quote rest)

theorem quote_ne_backslash {quote : UInt8} (quoted : Byte.isQuote quote = true) : Byte.backslash ≠ quote := by
  rintro rfl
  cases quoted

/-- A last quote that closes nothing stands behind an odd number of backslashes, if an even number of
them stands before the text. -/
theorem escaped_of_open {quote : UInt8} {text : Bytes} (behind : Bytes) (quoted : Byte.isQuote quote = true)
    (even : Bytes.run (· == Byte.backslash) behind % 2 = 0) (unclosed : closes quote text = false)
    (last : (text.take (stringTail quote text)).getLast? = some quote) :
    Bytes.run (· == Byte.backslash) ((text.take (stringTail quote text)).dropLast.reverse ++ behind) % 2 = 1 := by
  fun_induction stringTail quote text generalizing behind with
  | case1 => cases last
  | case2 next rest ends =>
    exact absurd (Option.some.inj last) (quote_ne_backslash quoted)
  | case3 next rest inner ih =>
    have deeper : closes quote rest = false := by
      rw [closes, Bool.eq_false_iff.mpr inner] at unclosed
      exact unclosed
    rw [List.take_succ_cons, List.take_succ_cons] at last ⊢
    generalize tail : rest.take (stringTail quote rest) = later at last ih ⊢
    cases later with
    | nil =>
      show Bytes.run _ (Byte.backslash :: behind) % 2 = 1
      rw [Bytes.run_cons, if_pos (beq_self_eq_true _)]
      omega
    | cons d later =>
      have pair : Bytes.run (· == Byte.backslash) (next :: Byte.backslash :: behind) % 2 = 0 := by
        rw [Bytes.run_cons, Bytes.run_cons]
        split
        · rw [if_pos (beq_self_eq_true _)]
          omega
        · rfl
      have found := ih _ pair deeper (by simpa using last)
      simpa using found
  | case4 c rest whole ends => cases last
  | case5 c rest whole inner closing =>
    rw [closes, Bool.eq_false_iff.mpr inner, closing] at unclosed
    · cases unclosed
    · exact whole
  | case6 c rest whole inner other ih =>
    have deeper : closes quote rest = false := by
      rw [closes, Bool.eq_false_iff.mpr inner, Bool.eq_false_iff.mpr other] at unclosed
      · exact unclosed
      · exact whole
    rw [List.take_succ_cons] at last ⊢
    cases rest with
    | nil =>
      rw [List.take_nil, List.getLast?_singleton] at last
      exact absurd (beq_iff_eq.mpr (Option.some.inj last)) other
    | cons d later =>
      generalize tail : (d :: later).take (stringTail quote (d :: later)) = taken at last ih ⊢
      cases taken with
      | nil => exact absurd (beq_iff_eq.mpr (Option.some.inj last)) other
      | cons e taken =>
        have broken : Bytes.run (· == Byte.backslash) (c :: behind) % 2 = 0 := by
          rw [Bytes.run_cons, if_neg]
          intro escape
          exact whole d later (eq_of_beq escape) rfl
        have found := ih _ broken deeper (by simpa using last)
        simpa using found

theorem unterminated_of_open {quote : UInt8} {rest : Bytes} (quoted : Byte.isQuote quote = true)
    (unclosed : closes quote rest = false) :
    Literal.isUnterminatedString (quote :: rest.take (stringTail quote rest)) = true := by
  have escaped := escaped_of_open [] quoted rfl unclosed
  cases taken : rest.take (stringTail quote rest) with
  | nil => rfl
  | cons next later =>
    rw [taken, List.append_nil] at escaped
    rw [Literal.isUnterminatedString, quoted, Bool.not_true, if_neg Bool.false_ne_true]
    split
    · rfl
    · rename_i last
      rw [escaped (by simpa using last)]
      rfl

end Lexer
end QueryService
