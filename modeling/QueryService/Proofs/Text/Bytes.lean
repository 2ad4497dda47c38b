import QueryService.Text.Bytes

/-!
# Facts on byte strings
-/

namespace QueryService

theorem Byte.toUpper_toUpper (c : UInt8) : toUpper (toUpper c) = toUpper c := by
  unfold toUpper isLower
  split
  · rename_i lower
    simp only [Bool.and_eq_true, decide_eq_true_eq, UInt8.le_iff_toNat_le, UInt8.reduceToNat] at lower
    have upper : (c - 0x20).toNat = c.toNat - 0x20 := by
      rw [UInt8.toNat_sub_of_le _ _ (by simp [UInt8.le_iff_toNat_le]; omega)]
      rfl
    rw [if_neg]
    simp only [Bool.and_eq_true, decide_eq_true_eq, UInt8.le_iff_toNat_le, upper, UInt8.reduceToNat]
    omega
  · rfl

namespace Bytes

theorem toUpper_toUpper (text : Bytes) : toUpper (toUpper text) = toUpper text := by
  simp [toUpper, Byte.toUpper_toUpper]

theorem run_cons (p : UInt8 → Bool) (c : UInt8) (rest : Bytes) :
    run p (c :: rest) = if p c then run p rest + 1 else 0 := by
  rw [run, List.takeWhile_cons]
  split <;> rfl

theorem run_eq_zero {p : UInt8 → Bool} {text : Bytes} (head : ∀ c, text.head? = some c → p c = false) :
    run p text = 0 := by
  cases text with
  | nil => rfl
  | cons c rest => rw [run_cons, head c rfl, if_neg Bool.false_ne_true]

theorem run_of_all {p : UInt8 → Bool} {n : Nat} {text : Bytes} (le : n ≤ text.length)
    (all : ∀ c ∈ text.take n, p c = true) : run p text = n + run p (text.drop n) := by
  rw [run, ← List.take_append_drop n text, List.takeWhile_append_of_pos all, List.length_append, List.length_take,
    Nat.min_eq_left le, List.take_append_drop]
  rfl

theorem le_run {p : UInt8 → Bool} {n : Nat} {text : Bytes} (le : n ≤ text.length)
    (all : ∀ c ∈ text.take n, p c = true) : n ≤ run p text := by
  rw [run_of_all le all]
  exact Nat.le_add_right _ _

theorem mem_take_run {p : UInt8 → Bool} {c : UInt8} {text : Bytes} (member : c ∈ text.take (run p text)) :
    p c = true := by
  rw [run, ← List.prefix_iff_eq_take.mp (List.takeWhile_prefix p)] at member
  exact List.all_eq_true.mp List.all_takeWhile c member

theorem run_take {p : UInt8 → Bool} {n : Nat} {text : Bytes} (inside : n ≤ run p text) :
    run p (text.take n) = n := by
  induction text generalizing n with
  | nil => rw [Nat.le_zero.mp inside]; rfl
  | cons c rest ih =>
    cases n with
    | zero => rfl
    | succ n =>
      rw [run_cons] at inside
      rw [List.take_succ_cons, run_cons]
      split at inside <;> rename_i taken
      · rw [if_pos taken, ih (Nat.le_of_succ_le_succ inside)]
      · cases inside

@[simp] theorem toUpper_eq_nil {text : Bytes} : toUpper text = [] ↔ text = [] := List.map_eq_nil_iff

theorem sameWord_iff {a b : Bytes} : sameWord a b = true ↔ toUpper a = toUpper b := by
  induction a generalizing b with
  | nil => cases b <;> simp [sameWord, toUpper]
  | cons x a ih =>
    cases b with
    | nil => simp [sameWord, toUpper]
    | cons y b =>
      simp only [toUpper] at ih
      simp [sameWord, toUpper, ih]

theorem sameWord_congr {a b : Bytes} (same : sameWord a b = true) (word : Bytes) :
    sameWord a word = sameWord b word := by
  rw [Bool.eq_iff_iff, sameWord_iff, sameWord_iff, sameWord_iff.mp same]

theorem dropWhile_eq_drop_run (p : UInt8 → Bool) (text : Bytes) : text.dropWhile p = text.drop (run p text) := by
  have split : (text.takeWhile p ++ text.dropWhile p).drop (run p text) = text.dropWhile p := List.drop_left
  rw [List.takeWhile_append_dropWhile] at split
  exact split.symm

theorem trimEnd_eq_take (p : UInt8 → Bool) (text : Bytes) :
    ∃ k ≤ text.length, trimEnd p text = text.take k ∧ (∀ c ∈ text.drop k, p c = true) ∧
      ∀ c, (text.take k).getLast? = some c → p c = false := by
  have split : trimEnd p text ++ (text.reverse.takeWhile p).reverse = text := by
    rw [trimEnd, ← List.reverse_append, List.takeWhile_append_dropWhile, List.reverse_reverse]
  have kept : (trimEnd p text ++ (text.reverse.takeWhile p).reverse).take (trimEnd p text).length =
      trimEnd p text := List.take_left
  have dropped : (trimEnd p text ++ (text.reverse.takeWhile p).reverse).drop (trimEnd p text).length =
      (text.reverse.takeWhile p).reverse := List.drop_left
  rw [split] at kept dropped
  refine ⟨(trimEnd p text).length, ?_, kept.symm, ?_, ?_⟩
  · have size := congrArg List.length split
    rw [List.length_append] at size
    omega
  · intro c member
    rw [dropped, List.mem_reverse] at member
    exact List.all_eq_true.mp List.all_takeWhile c member
  · intro c last
    rw [kept, trimEnd, List.getLast?_reverse] at last
    have stopped := List.head?_dropWhile_not p text.reverse
    rw [last] at stopped
    simpa using stopped

/-- Trimming splits a text in three: what it takes off on the left, what it keeps and what it takes off
on the right. -/
theorem trim_split (p : UInt8 → Bool) (text : Bytes) :
    ∃ behind, text.take (run p text) ++ (trim p text ++ behind) = text ∧ ∀ c ∈ behind, p c = true := by
  obtain ⟨k, _, kept, blank, _⟩ := trimEnd_eq_take p (text.dropWhile p)
  refine ⟨(text.dropWhile p).drop k, ?_, blank⟩
  rw [trim, kept, List.take_append_drop, dropWhile_eq_drop_run, List.take_append_drop]

theorem trim_prefix (p : UInt8 → Bool) (text : Bytes) : trim p text <+: text.drop (run p text) := by
  obtain ⟨k, _, kept, _, _⟩ := trimEnd_eq_take p (text.dropWhile p)
  rw [trim, kept, dropWhile_eq_drop_run]
  exact List.take_prefix _ _

theorem trim_head? {p : UInt8 → Bool} {c : UInt8} {text : Bytes} (found : (trim p text).head? = some c) :
    p c = false := by
  obtain ⟨k, _, kept, _, _⟩ := trimEnd_eq_take p (text.dropWhile p)
  rw [trim, kept, List.head?_take] at found
  split at found
  · cases found
  · have stopped := List.head?_dropWhile_not p text
    rw [found] at stopped
    simpa using stopped

theorem trim_getLast? {p : UInt8 → Bool} {c : UInt8} {text : Bytes} (found : (trim p text).getLast? = some c) :
    p c = false := by
  obtain ⟨k, _, kept, _, last⟩ := trimEnd_eq_take p (text.dropWhile p)
  rw [trim, kept] at found
  exact last c found

/-- A text that begins and ends with other bytes stays as it is. -/
theorem trim_eq_self {p : UInt8 → Bool} {text : Bytes} (head : ∀ c, text.head? = some c → p c = false)
    (final : ∀ c, text.getLast? = some c → p c = false) : trim p text = text := by
  have back : run p text.reverse = 0 := run_eq_zero fun c found => final c (by rwa [← List.head?_reverse])
  rw [trim, dropWhile_eq_drop_run, run_eq_zero head, List.drop_zero, trimEnd, dropWhile_eq_drop_run, back,
    List.drop_zero, List.reverse_reverse]

/-- A text keeps its last byte if that one is not to be taken off. -/
theorem getLast?_trim {p : UInt8 → Bool} {c : UInt8} {text : Bytes} (last : text.getLast? = some c)
    (stays : p c = false) : (trim p text).getLast? = some c := by
  obtain ⟨behind, split, blank⟩ := trim_split p text
  have lead : ∀ d ∈ text.take (run p text), p d = true := fun d => mem_take_run
  rw [← split, List.getLast?_append, List.getLast?_append] at last
  cases found : behind.getLast? with
  | some d =>
    rw [found] at last
    obtain rfl : d = c := Option.some.inj last
    rw [blank d (List.mem_of_getLast? found)] at stays
    cases stays
  | none =>
    rw [found] at last
    cases kept : (trim p text).getLast? with
    | some d =>
      rw [kept] at last
      exact last
    | none =>
      rw [kept] at last
      rw [lead c (List.mem_of_getLast? last)] at stays
      cases stays

theorem intercalate_append {separator : Bytes} {items more : List Bytes} (inhabited : items ≠ []) :
    List.intercalate separator (items ++ more) = List.intercalate separator items ∨
      ∃ later, List.intercalate separator (items ++ more) = List.intercalate separator items ++ (separator ++ later) := by
  induction items with
  | nil => contradiction
  | cons x items ih =>
    cases items with
    | nil =>
      cases more with
      | nil => exact Or.inl rfl
      | cons y more => exact Or.inr ⟨List.intercalate separator (y :: more), by simp [List.intercalate]⟩
    | cons y items =>
      have split (rest : List Bytes) : List.intercalate separator (x :: y :: rest) =
          x ++ (separator ++ List.intercalate separator (y :: rest)) := by
        simp [List.intercalate]
      have whole := ih (List.cons_ne_nil y items)
      rw [List.cons_append] at whole
      rw [List.cons_append, List.cons_append, split, split]
      rcases whole with same | ⟨later, more⟩
      · exact Or.inl (by rw [same])
      · exact Or.inr ⟨later, by simp only [more, List.append_assoc]⟩

/-- More items come behind a separator, if anything is written at all. -/
theorem joined_append {separator : Bytes} {items : List Bytes} (written : joined separator items ≠ [])
    (more : List Bytes) :
    joined separator (items ++ more) = joined separator items ∨
      ∃ later, joined separator (items ++ more) = joined separator items ++ (separator ++ later) := by
  have inhabited : items.dropWhile List.isEmpty ≠ [] := by
    intro blank
    rw [joined, blank] at written
    exact written rfl
  rw [joined, joined, List.dropWhile_append, if_neg (by simpa using inhabited)]
  exact intercalate_append inhabited

theorem joined_cons {separator x : Bytes} {items : List Bytes} (nonempty : x ≠ []) :
    joined separator (x :: items) = x ∨
      ∃ later, joined separator (x :: items) = x ++ (separator ++ later) := by
  have alone : joined separator [x] = x := by simp [joined, nonempty, List.intercalate]
  have written : joined separator [x] ≠ [] := by rwa [alone]
  have whole := joined_append written items
  rwa [alone] at whole

end Bytes
end QueryService
