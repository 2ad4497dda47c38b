import QueryService.Ascending

/-!
# Members of ascending lists

An ascending list holds the members it was made of, each once and in order.
-/

namespace QueryService

namespace Ascending

variable {x y : Nat} {items : List Nat}

theorem mem_insert : y ∈ insert x items ↔ y = x ∨ y ∈ items := by
  induction items with
  | nil => simp [insert]
  | cons z rest ih =>
    rw [insert]
    split
    · exact List.mem_cons
    · split
      · rename_i same
        rw [same, List.mem_cons, or_self_left]
      · rw [List.mem_cons, ih, List.mem_cons, or_left_comm]

theorem mem_ofList : y ∈ ofList items ↔ y ∈ items := by
  induction items with
  | nil => exact Iff.rfl
  | cons x items ih =>
    show y ∈ insert x (ofList items) ↔ _
    rw [mem_insert, ih, List.mem_cons]

theorem ascending_insert (x : Nat) (ascending : items.Pairwise (· < ·)) : (insert x items).Pairwise (· < ·) := by
  induction items with
  | nil => exact List.pairwise_singleton _ _
  | cons z rest ih =>
    obtain ⟨first, later⟩ := List.pairwise_cons.mp ascending
    rw [insert]
    split
    · rename_i before
      refine List.pairwise_cons.mpr ⟨fun y member => ?_, ascending⟩
      rcases List.mem_cons.mp member with rfl | behind
      · exact before
      · exact Nat.lt_trans before (first y behind)
    · split
      · exact ascending
      · refine List.pairwise_cons.mpr ⟨fun y member => ?_, ih later⟩
        rcases mem_insert.mp member with rfl | behind
        · omega
        · exact first y behind

theorem ascending_ofList (items : List Nat) : (ofList items).Pairwise (· < ·) := by
  induction items with
  | nil => exact List.Pairwise.nil
  | cons x items ih => exact ascending_insert x ih

end Ascending

end QueryService
