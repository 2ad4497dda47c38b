import QueryService.Text.Position

/-!
# Places in a text

Stepping a position over a text splits at any point, commutes with moving the text to another place,
and, by `locate_lineStarts`, finds the same places as the table of line starts.
-/

namespace QueryService
namespace Position

variable {p q r origin : Position} {text : Bytes}

theorem before_iff : p.before q = true ↔ p.line < q.line ∨ p.line = q.line ∧ p.column < q.column := by
  simp [before]

theorem not_before_iff : q.before p = false ↔ p.line < q.line ∨ p.line = q.line ∧ p.column ≤ q.column := by
  rw [← Bool.not_eq_true, before_iff]
  omega

theorem before_trans (first : p.before q = true) (second : q.before r = true) : p.before r = true := by
  rw [before_iff] at *
  omega

theorem before_asymm (ahead : p.before q = true) : q.before p = false := by
  rw [before_iff] at ahead
  rw [not_before_iff]
  omega

@[simp] theorem advance_zero (p : Position) (text : Bytes) : p.advance 0 text = p := by
  cases text <;> rfl

@[simp] theorem advance_nil (p : Position) (n : Nat) : p.advance n [] = p := by
  cases n <;> rfl

theorem advance_cons (p : Position) (n : Nat) (c : UInt8) (rest : Bytes) :
    p.advance (n + 1) (c :: rest) = (p.step c rest).advance n rest := rfl

theorem advance_add (p : Position) (m n : Nat) (text : Bytes) :
    p.advance (m + n) text = (p.advance m text).advance n (text.drop m) := by
  induction m generalizing p text with
  | zero => simp
  | succ m ih =>
    cases text with
    | nil => simp
    | cons c rest => rw [show m + 1 + n = (m + n) + 1 by omega, advance_cons, advance_cons, ih, List.drop_succ_cons]

theorem advance_take (p : Position) {m n : Nat} (text : Bytes) (inside : m < n) :
    p.advance m (text.take n) = p.advance m text := by
  induction m generalizing p n text with
  | zero => simp
  | succ m ih =>
    cases text with
    | nil => simp
    | cons c rest =>
      obtain ⟨n, rfl⟩ : ∃ k, n = k + 1 := ⟨n - 1, by omega⟩
      have ahead : endsLine c (rest.take n) = endsLine c rest := by
        rw [endsLine, endsLine, List.head?_take, if_neg (by omega)]
      rw [List.take_succ_cons, advance_cons, advance_cons, step, step, ahead, ih _ _ (by omega)]

theorem advance_of_prefix (p : Position) {n : Nat} {code text : Bytes} (place : code <+: text)
    (inside : n < code.length) : p.advance n code = p.advance n text := by
  have cut := advance_take p text inside
  rwa [← List.prefix_iff_eq_take.mp place] at cut

@[simp] theorem within_start (origin : Position) : ({} : Position).within origin = origin := rfl

theorem step_within (p origin : Position) (c : UInt8) (rest : Bytes) :
    (p.step c rest).within origin = (p.within origin).step c rest := by
  unfold step within
  by_cases first : p.line = 0 <;> cases endsLine c rest <;> simp [first, Nat.add_assoc]

theorem advance_within (p origin : Position) (n : Nat) (text : Bytes) :
    (p.advance n text).within origin = (p.within origin).advance n text := by
  induction n generalizing p text with
  | zero => simp
  | succ n ih =>
    cases text with
    | nil => simp
    | cons c rest => rw [advance_cons, advance_cons, ih, step_within]

end Position

theorem offset_lt_of_mem {offset start : Nat} {text : Bytes} (member : start ∈ laterLineStarts offset text) :
    offset < start := by
  induction text generalizing offset with
  | nil => cases member
  | cons c rest ih =>
    unfold laterLineStarts at member
    dsimp only at member
    split at member
    · rcases List.mem_cons.mp member with rfl | later
      · omega
      · have := ih later
        omega
    · have := ih member
      omega

/-- The line starts among the first bytes of a text. -/
def passedStarts (offset n : Nat) (text : Bytes) : List Nat :=
  (laterLineStarts offset text).takeWhile (· ≤ offset + n)

theorem passedStarts_zero (offset : Nat) (text : Bytes) : passedStarts offset 0 text = [] := by
  rw [passedStarts]
  cases starts : laterLineStarts offset text with
  | nil => rfl
  | cons start later =>
    have := offset_lt_of_mem (starts ▸ List.mem_cons_self)
    simp [this]

theorem passedStarts_cons (offset n : Nat) (c : UInt8) (rest : Bytes) :
    passedStarts offset (n + 1) (c :: rest) =
      if endsLine c rest then (offset + 1) :: passedStarts (offset + 1) n rest
      else passedStarts (offset + 1) n rest := by
  simp only [passedStarts, laterLineStarts, show offset + (n + 1) = offset + 1 + n by omega]
  split
  · rw [List.takeWhile_cons, if_pos (by simp)]
  · rfl

/-- The position `n` bytes on counts the line starts passed on the way, and its column goes back to
the last of them. -/
theorem advance_eq_passedStarts (p : Position) (offset n : Nat) (text : Bytes)
    (inside : n ≤ text.length) :
    p.advance n text = ⟨p.line + (passedStarts offset n text).length,
      ((passedStarts offset n text).getLast?.map (offset + n - ·)).getD (p.column + n)⟩ := by
  induction n generalizing p offset text with
  | zero => simp [passedStarts_zero]
  | succ n ih =>
    cases text with
    | nil => simp at inside
    | cons c rest =>
      rw [Position.advance_cons, ih _ (offset + 1) rest (by simpa using inside), passedStarts_cons,
        Position.step, show offset + (n + 1) = offset + 1 + n by omega]
      cases endsLine c rest with
      | false => simp [Nat.add_assoc, Nat.add_comm 1 n]
      | true =>
        cases last : (passedStarts (offset + 1) n rest).getLast? with
        | none =>
          simp only [last, List.getLast?_cons, if_true, List.length_cons, Option.map_none, Option.map_some,
            Option.getD_none, Option.getD_some, Position.mk.injEq]
          omega
        | some start => simp [last, List.getLast?_cons, Nat.add_assoc, Nat.add_comm 1]

/-- Stepping over a text and looking up its line starts find the same places. -/
theorem locate_lineStarts {text : Bytes} {offset : Nat} (inside : offset ≤ text.length) :
    locate (lineStarts text) offset = ({} : Position).advance offset text := by
  rw [advance_eq_passedStarts {} 0 offset text inside, locate, lineStarts]
  have passed : (0 :: laterLineStarts 0 text).takeWhile (· ≤ offset) = 0 :: passedStarts 0 offset text := by
    simp [passedStarts]
  rw [passed]
  have split : laterLineStarts 0 text = passedStarts 0 offset text ++
      (laterLineStarts 0 text).dropWhile (· ≤ 0 + offset) := List.takeWhile_append_dropWhile.symm
  rcases List.eq_nil_or_concat (passedStarts 0 offset text) with none | ⟨earlier, start, some⟩
  · simp [none]
  · rw [split, some]
    simp

end QueryService
