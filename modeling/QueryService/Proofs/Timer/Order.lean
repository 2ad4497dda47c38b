import QueryService.Proofs.Timer.Waiting

/-!
# The order in which timers fire

Timers fire by their deadlines, and by their numbers among equal deadlines. What is due is sorted by this
order, and a queue that has it already keeps it.
-/

namespace QueryService
namespace TimerQueue

variable {α : Type} {q : TimerQueue α} {a b c t : Timer α} {timers : List (Timer α)}

theorem firesBefore_iff : firesBefore a b = true ↔ a.deadline < b.deadline ∨ a.deadline = b.deadline ∧ a.id < b.id := by
  simp [firesBefore]

theorem firesBefore_trans (first : firesBefore a b = true) (second : firesBefore b c = true) :
    firesBefore a c = true := by
  rw [firesBefore_iff] at *
  omega

theorem firesBefore_total (differs : a.id ≠ b.id) (not : firesBefore a b = false) : firesBefore b a = true := by
  rw [← Bool.not_eq_true, firesBefore_iff] at not
  rw [firesBefore_iff]
  omega

theorem insertByDeadline_pairwise (sorted : timers.Pairwise fun a b => firesBefore a b = true)
    (fresh : ∀ other ∈ timers, t.id ≠ other.id) :
    (insertByDeadline t timers).Pairwise fun a b => firesBefore a b = true := by
  induction timers with
  | nil => exact List.pairwise_singleton _ _
  | cons first rest ih =>
    obtain ⟨ahead, later⟩ := List.pairwise_cons.mp sorted
    rw [insertByDeadline]
    split
    · rename_i before
      refine List.pairwise_cons.mpr ⟨?_, sorted⟩
      intro other member
      rcases List.mem_cons.mp member with rfl | behind
      · exact before
      · exact firesBefore_trans before (ahead other behind)
    · rename_i behind
      refine List.pairwise_cons.mpr ⟨?_, ih later fun other member => fresh other (List.mem_cons_of_mem _ member)⟩
      intro other member
      rcases mem_insertByDeadline.mp member with rfl | listed
      · exact firesBefore_total (fresh first List.mem_cons_self) (Bool.eq_false_iff.mpr behind)
      · exact ahead other listed

/-- The timers that are due at a time, in the order in which they fire. -/
def ordered (q : TimerQueue α) (now : Int) : List (Timer α) :=
  (q.timers.filter (·.deadline ≤ now)).foldr insertByDeadline []

theorem due_eq_map (q : TimerQueue α) (now : Int) : q.due now = (q.ordered now).map (·.id) := rfl

theorem mem_ordered {now : Int} : t ∈ q.ordered now ↔ t ∈ q.timers ∧ t.deadline ≤ now := by
  rw [ordered, mem_foldr_insert, List.mem_filter, decide_eq_true_eq]

theorem foldr_insert_pairwise (distinct : (timers.map (·.id)).Nodup) :
    (timers.foldr insertByDeadline []).Pairwise fun a b => firesBefore a b = true := by
  induction timers with
  | nil => exact List.Pairwise.nil
  | cons first rest ih =>
    obtain ⟨alone, others⟩ := List.nodup_cons.mp distinct
    refine insertByDeadline_pairwise (ih others) ?_
    intro other member same
    exact alone (List.mem_map.mpr ⟨other, mem_foldr_insert.mp member, same.symm⟩)

theorem ordered_pairwise (distinct : (q.timers.map (·.id)).Nodup) (now : Int) :
    (q.ordered now).Pairwise fun a b => firesBefore a b = true :=
  foldr_insert_pairwise (distinct.sublist (List.filter_sublist.map _))

theorem foldr_insert_self (sorted : timers.Pairwise fun a b => firesBefore a b = true) :
    timers.foldr insertByDeadline [] = timers := by
  induction timers with
  | nil => rfl
  | cons first rest ih =>
    obtain ⟨ahead, later⟩ := List.pairwise_cons.mp sorted
    rw [List.foldr_cons, ih later]
    cases rest with
    | nil => rfl
    | cons second rest => rw [insertByDeadline, if_pos (ahead second List.mem_cons_self)]

end TimerQueue
end QueryService
