import QueryService.Proofs.Text.Case
import QueryService.Proofs.Text.Joining

/-!
# Texts of one line

What is put together from texts without a line break has none either (`unbroken_append`, `unbroken_joined`).
The lines of a text hold no line feed (`not_mem_of_feedLines`), and such lines are read back from the text that has
one after each (`feedLines_followed`).
-/

namespace QueryService

variable {line text separator : Bytes} {lines items : List Bytes}

instance (line : Bytes) : Decidable (Unbroken line) :=
  List.decidableBAll (fun c => Byte.isBreak c = false) line

/-- Of a text that is written out only the characters are looked at. -/
theorem unbroken_ascii {letters : List Char} (plain : letters.all (fun c => !Byte.isBreak c.toUInt8) = true) :
    Unbroken (ascii (String.ofList letters)) := by
  intro c member
  rw [ascii, String.toList_ofList] at member
  obtain ⟨letter, there, rfl⟩ := List.mem_map.mp member
  exact (Bool.not_eq_true' _).mp (List.all_eq_true.mp plain letter there)

theorem unbroken_append (first : Unbroken line) (second : Unbroken text) : Unbroken (line ++ text) := by
  intro c member
  exact (List.mem_append.mp member).elim (first c) (second c)

theorem unbroken_toUpper (unbroken : Unbroken line) : Unbroken (Bytes.toUpper line) := by
  intro c member
  obtain ⟨letter, there, rfl⟩ := List.mem_map.mp member
  rw [Byte.caseless_isBreak]
  exact unbroken letter there

theorem unbroken_intercalate (between : Unbroken separator) (unbroken : ∀ item ∈ items, Unbroken item) :
    Unbroken (List.intercalate separator items) := by
  induction items with
  | nil => exact unbroken_nil
  | cons first items ih =>
    have alone := unbroken first List.mem_cons_self
    cases items with
    | nil => rwa [List.intercalate_singleton]
    | cons next items =>
      have later := ih fun item member => unbroken item (List.mem_cons_of_mem first member)
      rw [List.intercalate_cons_cons]
      exact unbroken_append (unbroken_append alone between) later

theorem unbroken_joined (between : Unbroken separator) (unbroken : ∀ item ∈ items, Unbroken item) :
    Unbroken (Bytes.joined separator items) :=
  unbroken_intercalate between fun item member => unbroken item ((List.dropWhile_sublist _).subset member)

theorem unbroken_ofNat (n : Nat) : Unbroken (Bytes.ofNat n) := by
  intro c member
  obtain ⟨digit, written, rfl⟩ := List.mem_map.mp member
  have decimal := Nat.isDigit_of_mem_toDigits (by decide) (by decide) written
  simp only [Char.isDigit, Bool.and_eq_true, decide_eq_true_eq, ge_iff_le, UInt32.le_iff_toNat_le] at decimal
  have value : digit.toUInt8.toNat = digit.val.toNat := by
    rw [Char.toUInt8, UInt32.toNat_toUInt8, Nat.mod_eq_of_lt]
    exact Nat.lt_of_le_of_lt decimal.2 (by decide)
  have other {mark : UInt8} (below : mark.toNat < 48) : (digit.toUInt8 == mark) = false := by
    rw [beq_eq_false_iff_ne]
    rintro rfl
    exact absurd decimal.1 (by rw [← value]; exact Nat.not_le.mpr below)
  rw [Byte.isBreak, other (by decide), other (by decide), Bool.false_or]

/-! ### Lines between line feeds -/

theorem not_mem_of_unbroken (unbroken : Unbroken line) : Byte.lf ∉ line :=
  fun member => Bool.noConfusion (unbroken Byte.lf member)

theorem feedLines_cons (fed : Byte.lf ∉ line) (rest : Bytes) :
    Bytes.feedLines (line ++ Byte.lf :: rest) = line :: Bytes.feedLines rest := by
  obtain ⟨piece, pieces, split⟩ := List.exists_cons_of_ne_nil (List.splitOn_ne_nil Byte.lf rest)
  unfold Bytes.feedLines
  dsimp only
  rw [List.splitOn_append_cons_self_of_not_mem fed, split, List.getLast?_cons_cons, List.dropLast_cons_cons]
  split <;> rfl

theorem feedLines_followed (fed : ∀ line ∈ lines, Byte.lf ∉ line) : Bytes.feedLines (followed lines) = lines := by
  induction lines with
  | nil => rfl
  | cons line lines ih =>
    rw [followed_cons, feedLines_cons (fed line List.mem_cons_self),
      ih fun next member => fed next (List.mem_cons_of_mem line member)]

theorem not_mem_of_splitOn (text : Bytes) : ∀ piece ∈ text.splitOn Byte.lf, Byte.lf ∉ piece := by
  induction text with
  | nil =>
    intro piece member
    rw [List.splitOn_nil, List.mem_singleton] at member
    rw [member]
    exact List.not_mem_nil
  | cons c text ih =>
    obtain ⟨first, pieces, split⟩ := List.exists_cons_of_ne_nil (List.splitOn_ne_nil Byte.lf text)
    rw [split, List.forall_mem_cons] at ih
    rw [List.splitOn_cons_eq_if_modifyHead, split]
    split
    · exact List.forall_mem_cons.mpr ⟨List.not_mem_nil, List.forall_mem_cons.mpr ih⟩
    · next other =>
      have fed : c ≠ Byte.lf := fun same => other (beq_iff_eq.mpr same)
      exact List.forall_mem_cons.mpr ⟨List.not_mem_cons_of_ne_of_not_mem fed.symm ih.1, ih.2⟩

theorem not_mem_of_feedLines (member : line ∈ Bytes.feedLines text) : Byte.lf ∉ line := by
  refine not_mem_of_splitOn text line ?_
  unfold Bytes.feedLines at member
  dsimp only at member
  split at member
  · exact (List.dropLast_sublist _).subset member
  · exact member

end QueryService
