import Mathlib.Data.List.Infix
import Mathlib.Order.Lattice.Nat
import QueryService.Diagnostic.Spelling

/-!
# The distance of two words

The distance is defined by scripts of single edits, and computed from tables. An alignment by the first bytes
gives a script (`edits_alignment`), and no edit changes the alignment by more than one (`Near.of_edit`), so its
cost is the least length of a script. A row of the table holds the costs of the alignments by the last bytes
(`foldl_nextRow`), hence `editDistance_eq_levenshtein`.
-/

namespace QueryService

variable {a b c : Bytes} {m n : Nat} {x y : UInt8}

/-- One byte is inserted, deleted or replaced. -/
inductive Edit : Bytes → Bytes → Prop
  | insert (before : Bytes) (x : UInt8) (behind : Bytes) : Edit (before ++ behind) (before ++ x :: behind)
  | delete (before : Bytes) (x : UInt8) (behind : Bytes) : Edit (before ++ x :: behind) (before ++ behind)
  | replace (before : Bytes) (x y : UInt8) (behind : Bytes) :
      Edit (before ++ x :: behind) (before ++ y :: behind)

/-- A script of so many edits turns the first text into the second. -/
inductive Edits : Nat → Bytes → Bytes → Prop
  | done (a : Bytes) : Edits 0 a a
  | edit {n : Nat} {a b c : Bytes} (first : Edit a b) (later : Edits n b c) : Edits (n + 1) a c

/-- The length of the shortest scripts that turn the first text into the second. -/
noncomputable def levenshtein (a b : Bytes) : Nat := sInf {n | Edits n a b}

/-! ### Scripts -/

theorem Edit.cons (x : UInt8) (edit : Edit a b) : Edit (x :: a) (x :: b) := by
  cases edit with
  | insert before y behind => exact insert (x :: before) y behind
  | delete before y behind => exact delete (x :: before) y behind
  | replace before y z behind => exact replace (x :: before) y z behind

theorem Edit.reverse (edit : Edit a b) : Edit a.reverse b.reverse := by
  cases edit with
  | insert before x behind => simpa using insert behind.reverse x before.reverse
  | delete before x behind => simpa using delete behind.reverse x before.reverse
  | replace before x y behind => simpa using replace behind.reverse x y before.reverse

namespace Edits

theorem cons (x : UInt8) (edits : Edits n a b) : Edits n (x :: a) (x :: b) := by
  induction edits with
  | done a => exact done (x :: a)
  | edit first _ ih => exact edit (first.cons x) ih

theorem reverse (edits : Edits n a b) : Edits n a.reverse b.reverse := by
  induction edits with
  | done a => exact done a.reverse
  | edit first _ ih => exact edit first.reverse ih

theorem reverse_iff : Edits n a.reverse b.reverse ↔ Edits n a b := by
  refine ⟨fun edits => ?_, reverse⟩
  simpa using edits.reverse

end Edits

/-! ### Alignments -/

/-- The cost of the best alignment of two texts, by their first bytes. -/
def alignment : Bytes → Bytes → Nat
  | [], b => b.length
  | a, [] => a.length
  | x :: a, y :: b =>
    min (alignment a (y :: b) + 1) (min (alignment (x :: a) b + 1) (alignment a b + if x = y then 0 else 1))
termination_by a b => a.length + b.length

theorem alignment_nil_left (b : Bytes) : alignment [] b = b.length := by rw [alignment]

theorem alignment_nil_right (a : Bytes) : alignment a [] = a.length := by
  cases a with
  | nil => exact alignment_nil_left []
  | cons x a => rw [alignment]; exact List.cons_ne_nil x a

theorem alignment_cons (x y : UInt8) (a b : Bytes) :
    alignment (x :: a) (y :: b) =
      min (alignment a (y :: b) + 1)
        (min (alignment (x :: a) b + 1) (alignment a b + if x = y then 0 else 1)) := by
  rw [alignment]

theorem edits_alignment (a b : Bytes) : Edits (alignment a b) a b := by
  fun_induction alignment a b with
  | case1 b =>
    induction b with
    | nil => exact .done []
    | cons y b ih => exact .edit (.insert [] y []) (ih.cons y)
  | case2 a nonempty =>
    induction a with
    | nil => contradiction
    | cons x a ih =>
      by_cases empty : a = []
      · rw [empty]
        exact .edit (.delete [] x []) (.done [])
      · exact .edit (.delete [] x a) (ih empty)
  | case3 x a y b deleted inserted kept =>
    rcases min_choice (alignment a (y :: b) + 1)
      (min (alignment (x :: a) b + 1) (alignment a b + if x = y then 0 else 1)) with least | least
    · rw [least]
      exact .edit (.delete [] x a) deleted
    · rw [least]
      rcases min_choice (alignment (x :: a) b + 1) (alignment a b + if x = y then 0 else 1) with least | least
      · rw [least]
        exact .edit (.insert [] y (x :: a)) (inserted.cons y)
      · rw [least]
        split <;> rename_i same
        · rw [same]
          exact kept.cons y
        · exact .edit (.replace [] x y a) (kept.cons y)

/-! ### No script is shorter -/

theorem alignment_delete (x : UInt8) (a c : Bytes) : alignment (x :: a) c ≤ alignment a c + 1 := by
  cases c with
  | nil => rw [alignment_nil_right, alignment_nil_right]; exact Nat.le_refl _
  | cons y c => rw [alignment_cons]; exact min_le_left _ _

theorem alignment_insert (y : UInt8) (a c : Bytes) : alignment a (y :: c) ≤ alignment a c + 1 := by
  cases a with
  | nil => rw [alignment_nil_left, alignment_nil_left]; exact Nat.le_refl _
  | cons x a =>
    rw [alignment_cons]
    exact (min_le_right _ _).trans (min_le_left _ _)

theorem alignment_pair (x y : UInt8) (a c : Bytes) :
    alignment (x :: a) (y :: c) ≤ alignment a c + if x = y then 0 else 1 := by
  rw [alignment_cons]
  exact (min_le_right _ _).trans (min_le_right _ _)

/-- The first text is at most one edit farther from any text than the second. -/
def Near (a b : Bytes) : Prop := ∀ c, alignment a c ≤ alignment b c + 1

namespace Near

theorem delete (x : UInt8) (a : Bytes) : Near (x :: a) a := alignment_delete x a

theorem insert (x : UInt8) (a : Bytes) : Near a (x :: a) := by
  intro c
  induction c with
  | nil => rw [alignment_nil_right, alignment_nil_right, List.length_cons]; omega
  | cons y c ih =>
    have inserted := alignment_insert y a c
    rw [alignment_cons]
    omega

theorem replace (x y : UInt8) (a : Bytes) : Near (x :: a) (y :: a) := by
  intro c
  induction c with
  | nil => rw [alignment_nil_right, alignment_nil_right, List.length_cons, List.length_cons]; omega
  | cons z c ih =>
    have deleted := alignment_delete x a (z :: c)
    have inserted := alignment_insert z (x :: a) c
    have paired := alignment_pair x z a c
    rw [alignment_cons y]
    split at paired <;> omega

theorem cons (near : Near a b) (x : UInt8) : Near (x :: a) (x :: b) := by
  intro c
  induction c with
  | nil =>
    have short := near []
    rw [alignment_nil_right, alignment_nil_right] at short ⊢
    exact Nat.succ_le_succ short
  | cons z c ih =>
    have deleted := alignment_delete x a (z :: c)
    have inserted := alignment_insert z (x :: a) c
    have paired := alignment_pair x z a c
    have here := near c
    have there := near (z :: c)
    rw [alignment_cons x z b]
    omega

theorem of_edit (edit : Edit a b) : Near a b := by
  have behind {before a b : Bytes} (near : Near a b) : Near (before ++ a) (before ++ b) := by
    induction before with
    | nil => exact near
    | cons x before ih => exact ih.cons x
  cases edit with
  | insert before x rest => exact behind (insert x rest)
  | delete before x rest => exact behind (delete x rest)
  | replace before x y rest => exact behind (replace x y rest)

end Near

theorem alignment_le (edits : Edits n a b) : alignment a b ≤ n := by
  induction edits with
  | done a =>
    induction a with
    | nil => rw [alignment_nil_left]; exact Nat.le_refl 0
    | cons x a ih =>
      have paired := alignment_pair x x a a
      rw [if_pos rfl] at paired
      exact paired.trans ih
  | edit first _ ih => exact (Near.of_edit first _).trans (Nat.succ_le_succ ih)

/-! ### Rows of the table -/

namespace EditDistance

/-- The cost of the best alignment by the last bytes. -/
def backward (a b : Bytes) : Nat := alignment a.reverse b.reverse

theorem backward_nil_left (b : Bytes) : backward [] b = b.length := by
  rw [backward, List.reverse_nil, alignment_nil_left, List.length_reverse]

theorem backward_nil_right (a : Bytes) : backward a [] = a.length := by
  rw [backward, List.reverse_nil, alignment_nil_right, List.length_reverse]

theorem backward_concat (a b : Bytes) (x y : UInt8) :
    backward (a ++ [x]) (b ++ [y]) =
      min (backward a (b ++ [y]) + 1) (min (backward (a ++ [x]) b + 1) (backward a b + if x = y then 0 else 1)) := by
  simp only [backward, List.reverse_concat, alignment_cons]

/-- The costs of a word against the prefixes of a text. -/
def costs (a text : Bytes) : List Nat := text.inits.map (backward a)

theorem firstRow_eq_costs (text : Bytes) : firstRow text = costs [] text := by
  have lengths (text : Bytes) : List.range (text.length + 1) = text.inits.map List.length := by
    induction text with
    | nil => rfl
    | cons y text ih =>
      rw [List.length_cons, List.range_succ_eq_map, ih, List.inits_cons, List.map_cons, List.map_map, List.map_map]
      rfl
  rw [firstRow, lengths, costs]
  refine List.map_congr_left fun p _ => ?_
  rw [backward_nil_left]

theorem exists_inits (text : Bytes) : ∃ longer, text.inits = [] :: longer := by
  cases text with
  | nil => exact ⟨[], rfl⟩
  | cons x text => exact ⟨text.inits.map (x :: ·), rfl⟩

/-- The rest of a row, from the prefix `p` of the text on. -/
theorem rowAfter_costs (x : UInt8) (a p text : Bytes) :
    rowAfter x (backward (a ++ [x]) p) text (text.inits.map fun q => backward a (p ++ q)) =
      text.inits.tail.map fun q => backward (a ++ [x]) (p ++ q) := by
  induction text generalizing p with
  | nil => rfl
  | cons y text ih =>
    have later := ih (p ++ [y])
    obtain ⟨longer, shortest⟩ := exists_inits text
    rw [shortest] at later
    simp only [List.map_cons, List.tail_cons, List.append_assoc, List.singleton_append,
      backward_concat] at later
    rw [List.inits_cons, shortest]
    simp only [List.map_cons, List.map_map, List.tail_cons, List.append_nil, Function.comp_def, rowAfter,
      backward_concat, later]

theorem nextRow_costs (x : UInt8) (a text : Bytes) : nextRow text (costs a text) x = costs (a ++ [x]) text := by
  have row := rowAfter_costs x a [] text
  obtain ⟨longer, shortest⟩ := exists_inits text
  have first : backward (a ++ [x]) [] = backward a [] + 1 := by
    rw [backward_nil_right, backward_nil_right, List.length_append, List.length_singleton]
  simp only [List.nil_append] at row
  unfold nextRow costs
  rw [shortest] at row ⊢
  simp only [List.map_cons, List.headD_cons, List.tail_cons, first] at row ⊢
  rw [row]

theorem foldl_nextRow (a text : Bytes) : a.foldl (nextRow text) (firstRow text) = costs a text := by
  induction a using List.reverseRecOn with
  | nil => exact firstRow_eq_costs text
  | append_singleton a x ih => rw [List.foldl_append, ih, List.foldl_cons, List.foldl_nil, nextRow_costs]

theorem getLast?_inits (text : Bytes) : text.inits.getLast? = some text := by
  induction text with
  | nil => rfl
  | cons x text ih =>
    obtain ⟨longer, shortest⟩ := exists_inits text
    rw [List.inits_cons, shortest, List.map_cons, List.getLast?_cons_cons, ← List.map_cons, ← shortest,
      List.getLast?_map, ih]
    rfl

end EditDistance

open EditDistance

theorem editDistance_eq_backward (a b : Bytes) : editDistance a b = backward a b := by
  rw [editDistance, foldl_nextRow, costs, List.getLastD_eq_getLast?, List.getLast?_map, getLast?_inits]
  rfl

/-- The table gives the length of the shortest scripts. -/
theorem editDistance_isLeast (a b : Bytes) : IsLeast {n | Edits n a b} (editDistance a b) := by
  rw [editDistance_eq_backward]
  exact ⟨Edits.reverse_iff.mp (edits_alignment _ _), fun n edits => alignment_le edits.reverse⟩

theorem editDistance_eq_levenshtein (a b : Bytes) : editDistance a b = levenshtein a b :=
  (editDistance_isLeast a b).csInf_eq.symm

end QueryService
