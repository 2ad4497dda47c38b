import QueryService.Highlighter.Spans
import QueryService.Proofs.Text.Columns
import QueryService.Proofs.Text.Joining
import QueryService.Proofs.Token.Lines

/-!
# Parts of tokens on a line

A token covers a line where its bytes stand on it (`pieceOnLine_iff`), whether it begins there or reaches
over from a line before. A significant token stays on its line (`significant_line`).
-/

namespace QueryService
open Lexer

variable {text : Bytes} {t : Token} {line column : Nat}

namespace Position

theorem within_eq_iff {p q origin : Position} :
    p.within origin = q ↔
      origin.line + p.line = q.line ∧ (if p.line = 0 then origin.column else 0) + p.column = q.column := by
  unfold within
  split
  · rename_i first
    rw [first, Nat.add_zero]
    exact Position.mk.injEq _ _ _ _ |> iff_of_eq
  · rw [Nat.zero_add]
    exact Position.mk.injEq _ _ _ _ |> iff_of_eq

end Position

/-- The part of a token on a line covers the columns of those of its bytes that stand there. -/
theorem Token.pieceOnLine_covers_iff (t : Token) :
    (∃ piece, t.pieceOnLine line = some piece ∧ piece.1 ≤ column ∧ column < piece.1 + piece.2) ↔
      ∃ j c, t.value[j]? = some c ∧ Byte.isBreak c = false ∧ t.position.advance j t.value = ⟨line, column⟩ := by
  have moved (j : Nat) : t.position.advance j t.value = ⟨line, column⟩ ↔
      t.line + (({} : Position).advance j t.value).line = line ∧
        (if (({} : Position).advance j t.value).line = 0 then t.column else 0) +
          (({} : Position).advance j t.value).column = column := by
    rw [Position.advance_from, Position.within_eq_iff]
    rfl
  unfold pieceOnLine
  constructor
  · rintro ⟨piece, found, after, before⟩
    split at found
    · cases found
    · obtain ⟨content, row, rfl⟩ := Option.map_eq_some_iff.mp found
      dsimp only at after before
      have inside : column - (if line = t.line then t.column else 0) < content.length := by omega
      obtain ⟨j, c, there, inner, place⟩ := exists_byte_at row inside
      refine ⟨j, c, there, inner, (moved j).mpr ?_⟩
      rw [place]
      dsimp only
      split at after <;> split <;> omega
  · rintro ⟨j, c, there, inner, place⟩
    obtain ⟨row, shift⟩ := (moved j).mp place
    obtain ⟨content, found, inside⟩ := exists_byte_iff.mpr ⟨j, c, there, inner, rfl⟩
    rw [if_neg (by omega)]
    rw [show line - t.line = (({} : Position).advance j t.value).line by omega, found]
    refine ⟨_, rfl, ?_⟩
    dsimp only
    split at shift <;> split <;> omega

/-- The part of a token of a text on a line covers the columns of those bytes of the text that are in it. -/
theorem pieceOnLine_iff (member : t ∈ tokenize text) :
    (∃ piece, t.pieceOnLine line = some piece ∧ piece.1 ≤ column ∧ column < piece.1 + piece.2) ↔
      ∃ i c, t.start ≤ i ∧ i < t.stop ∧ text[i]? = some c ∧ Byte.isBreak c = false ∧
        ({} : Position).advance i text = ⟨line, column⟩ := by
  obtain ⟨place, stop, position⟩ := token_place member
  have byte {j : Nat} (inside : j < t.value.length) : t.value[j]? = text[t.start + j]? := by
    rw [← List.getElem?_drop]
    obtain ⟨behind, split⟩ := place
    rw [← split, List.getElem?_append_left inside]
  have stands {j : Nat} (inside : j < t.value.length) :
      t.position.advance j t.value = ({} : Position).advance (t.start + j) text := by
    rw [position, Position.advance_add, Position.advance_of_prefix _ place inside]
  rw [Token.pieceOnLine_covers_iff, stop]
  constructor
  · rintro ⟨j, c, there, inner, found⟩
    obtain ⟨inside, _⟩ := List.getElem?_eq_some_iff.mp there
    rw [byte inside] at there
    rw [stands inside] at found
    exact ⟨t.start + j, c, Nat.le_add_right _ _, Nat.add_lt_add_left inside _, there, inner, found⟩
  · rintro ⟨i, c, behind, before, there, inner, found⟩
    obtain ⟨j, rfl⟩ := Nat.exists_eq_add_of_le behind
    have inside := Nat.lt_of_add_lt_add_left before
    exact ⟨j, c, (byte inside).trans there, inner, (stands inside).trans found⟩

/-- A significant token breaks no line. -/
theorem significant_unbroken (member : t ∈ tokenize text) (significant : t.isSignificant = true) :
    Unbroken t.value := by
  obtain ⟨n, c, rest, _, _, rfl⟩ := mem_tokensFrom member
  refine value_inLine (Bool.eq_false_iff.mpr fun may => ?_)
  have trivial : (lexeme c rest).kind = .newline ∨ (lexeme c rest).kind = .comment := by
    rcases mayBreak_cases may with ended | ⟨rfl, later, rfl⟩
    · exact Or.inl (by rw [lexeme_break ended])
    · exact Or.inr rfl
  rcases trivial with kind | kind <;> rw [kind] at significant <;> cases significant

/-- A significant token is shown on its own line only. -/
theorem significant_line {piece : Nat × Nat} (member : t ∈ tokenize text) (significant : t.isSignificant = true)
    (shown : t.pieceOnLine line = some piece) : line = t.line := by
  unfold Token.pieceOnLine at shown
  split at shown
  · cases shown
  · obtain ⟨content, row, _⟩ := Option.map_eq_some_iff.mp shown
    rw [splitLines_unbroken (significant_unbroken member significant), List.getElem?_singleton] at row
    split at row
    · omega
    · cases row

end QueryService
