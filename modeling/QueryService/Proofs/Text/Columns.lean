import QueryService.Proofs.Text.Lines

/-!
# Columns and offsets

A byte that breaks no line has a column of its own on a line, and each column of a line belongs to one
such byte (`exists_byte_iff`). It stands as many bytes behind the start of its line as its column says
(`column_iff`).
-/

namespace QueryService

variable {text : Bytes} {line column : Nat}

theorem keepsBreaks_of_inner {i : Nat} {c : UInt8} (there : text[i]? = some c) (inner : Byte.isBreak c = false) :
    KeepsBreaks (text.take i) (text.drop i) := by
  intro _ next
  rw [List.head?_drop, there] at next
  obtain rfl := Option.some.inj next
  cases inner

/-- An empty line has no columns, so a column belongs to a line behind it. -/
theorem later_of_filled {content : Bytes} {lines : List Bytes} (found : ([] :: lines)[line]? = some content)
    (inside : column < content.length) : ∃ later, line = later + 1 ∧ lines[later]? = some content := by
  cases line with
  | zero => obtain rfl := Option.some.inj found; cases inside
  | succ later => exact ⟨later, rfl, found⟩

theorem exists_byte_at {content : Bytes} (found : (splitLines text)[line]? = some content)
    (inside : column < content.length) :
    ∃ i c, text[i]? = some c ∧ Byte.isBreak c = false ∧ ({} : Position).advance i text = ⟨line, column⟩ := by
  induction text using lineInduction generalizing line column content with
  | nil =>
    have single : ([] :: ([] : List Bytes))[line]? = some content := found
    obtain ⟨later, _, none⟩ := later_of_filled single inside
    cases none
  | pair rest ih =>
    rw [splitLines_pair] at found
    obtain ⟨later, rfl, found⟩ := later_of_filled found inside
    obtain ⟨i, c, there, inner, place⟩ := ih found inside
    refine ⟨i + 2, c, there, inner, ?_⟩
    rw [Position.advance_pair, Position.advance_from, place, Position.within_line, Nat.zero_add, Nat.add_comm]
  | ends c rest ends ih =>
    rw [splitLines_ends ends] at found
    obtain ⟨later, rfl, found⟩ := later_of_filled found inside
    obtain ⟨i, d, there, inner, place⟩ := ih found inside
    refine ⟨i + 1, d, there, inner, ?_⟩
    rw [Position.advance_ends _ _ ends, Position.advance_from, place, Position.within_line, Nat.zero_add, Nat.add_comm]
  | inner c rest inner ih =>
    obtain ⟨lines, first⟩ := exists_splitLines rest
    rw [splitLines_inner inner first] at found
    rw [first] at ih
    obtain _ | later := line
    · obtain rfl := Option.some.inj found
      obtain _ | column := column
      · exact ⟨0, c, rfl, inner, rfl⟩
      · obtain ⟨i, d, there, inner', place⟩ := @ih 0 column _ rfl (Nat.lt_of_succ_lt_succ inside)
        refine ⟨i + 1, d, there, inner', ?_⟩
        rw [Position.advance_inner _ _ _ inner, Position.advance_from, place, Nat.add_comm column]
        rfl
    · obtain ⟨i, d, there, inner', place⟩ := @ih (later + 1) column content found inside
      refine ⟨i + 1, d, there, inner', ?_⟩
      rw [Position.advance_inner _ _ _ inner, Position.advance_from, place, Position.within,
        if_neg (Nat.succ_ne_zero later), Nat.zero_add]

/-- The columns of a line are those of the bytes that break no line. -/
theorem exists_byte_iff : (∃ content, (splitLines text)[line]? = some content ∧ column < content.length) ↔
    ∃ i c, text[i]? = some c ∧ Byte.isBreak c = false ∧ ({} : Position).advance i text = ⟨line, column⟩ := by
  refine ⟨fun ⟨content, found, inside⟩ => exists_byte_at found inside, ?_⟩
  rintro ⟨i, c, there, inner, place⟩
  obtain ⟨before, width, found⟩ := exists_line_at (keepsBreaks_of_inner there inner)
  rw [place] at width found
  refine ⟨_, found, ?_⟩
  rw [List.length_append, List.drop_eq_getElem?_toList_append, there, Option.toList_some,
    List.singleton_append, upToBreak_inner inner, List.length_cons, width]
  dsimp only
  omega

theorem line_le_advance (p : Position) (n : Nat) (text : Bytes) : p.line ≤ (p.advance n text).line := by
  induction n generalizing p text with
  | zero => exact Nat.le_of_eq (congrArg Position.line (Position.advance_zero p text).symm)
  | succ n ih =>
    cases text with
    | nil => exact Nat.le_of_eq (congrArg Position.line (Position.advance_nil p (n + 1)).symm)
    | cons c rest =>
      have step : p.line ≤ (p.step c rest).line := by
        unfold Position.step
        split
        · exact Nat.le_succ _
        · exact Nat.le_refl _
      exact Nat.le_trans step (ih _ _)

/-- A later place of a text is on the same line or on a later one. -/
theorem locate_line_mono {i j : Nat} (le : i ≤ j) (inside : j ≤ text.length) :
    (locate (lineStarts text) i).line ≤ (locate (lineStarts text) j).line := by
  obtain ⟨n, rfl⟩ := Nat.exists_eq_add_of_le le
  rw [locate_lineStarts (Nat.le_trans le inside), locate_lineStarts inside, Position.advance_add]
  exact line_le_advance _ _ _

/-- A place is as far behind the start of its line as its column says. -/
theorem start_of_locate (text : Bytes) (i : Nat) :
    ∃ start, (lineStarts text)[(locate (lineStarts text) i).line]? = some start ∧
      start + (locate (lineStarts text) i).column = i := by
  have last : (locate (lineStarts text) i).line < ((lineStarts text).takeWhile (· ≤ i)).length := by
    have first : (lineStarts text).takeWhile (· ≤ i) = 0 :: (laterLineStarts 0 text).takeWhile (· ≤ i) := by
      rw [lineStarts, List.takeWhile_cons, if_pos (by simp)]
    show ((lineStarts text).takeWhile (· ≤ i)).length - 1 < _
    rw [first, List.length_cons]
    exact Nat.lt_succ_self _
  have there := List.getElem?_eq_getElem last
  have passed := List.all_eq_true.mp List.all_takeWhile _ (List.mem_of_getElem? there)
  rw [decide_eq_true_eq] at passed
  obtain ⟨later, split⟩ := List.takeWhile_prefix (l := lineStarts text) (· ≤ i)
  have whole : ((lineStarts text).takeWhile (· ≤ i) ++ later)[(locate (lineStarts text) i).line]? = _ :=
    (List.getElem?_append_left last).trans there
  rw [split] at whole
  refine ⟨_, whole, ?_⟩
  have column : (locate (lineStarts text) i).column =
      i - ((lineStarts text)[(locate (lineStarts text) i).line]?).getD 0 := by
    rw [locate, List.getD_eq_getElem?_getD]
  rw [column, whole, Option.getD_some]
  omega

/-- The columns of a line that bytes from `first` up to `stop` stand at. -/
theorem column_iff {start first stop : Nat} {content : Bytes} (begins : (lineStarts text)[line]? = some start)
    (found : (splitLines text)[line]? = some content) :
    (∃ i c, first ≤ i ∧ i < stop ∧ text[i]? = some c ∧ Byte.isBreak c = false ∧
        ({} : Position).advance i text = ⟨line, column⟩) ↔
      column < content.length ∧ first ≤ start + column ∧ start + column < stop := by
  have offset {i : Nat} {c : UInt8} (there : text[i]? = some c)
      (place : ({} : Position).advance i text = ⟨line, column⟩) : i = start + column := by
    obtain ⟨inside, _⟩ := List.getElem?_eq_some_iff.mp there
    obtain ⟨start', begins', same⟩ := start_of_locate text i
    rw [locate_lineStarts (Nat.le_of_lt inside), place] at begins' same
    rw [begins] at begins'
    rw [Option.some.inj begins', ← same]
  constructor
  · rintro ⟨i, c, behind, before, there, inner, place⟩
    obtain ⟨content', found', inside⟩ := exists_byte_iff.mpr ⟨i, c, there, inner, place⟩
    rw [found] at found'
    rw [← offset there place, Option.some.inj found']
    exact ⟨inside, behind, before⟩
  · rintro ⟨inside, behind, before⟩
    obtain ⟨i, c, there, inner, place⟩ := exists_byte_at found inside
    rw [← offset there place] at behind before
    exact ⟨i, c, behind, before, there, inner, place⟩

end QueryService
