import QueryService.Diagnostic.Rows
import QueryService.Proofs.Spelling.Distance

/-!
# The distance as a metric

A script can be read backwards and scripts follow one another, so the distance is symmetric and obeys the triangle
inequality. Two rows that change places hold what the rows of the table hold (`inPlace_eq_editDistance`): an entry
is overwritten after its last use, and read only after it is written.
-/

namespace QueryService

variable {a b c : Bytes} {m n : Nat}

/-! ### Scripts as paths -/

theorem Edit.symm (edit : Edit a b) : Edit b a := by
  cases edit with
  | insert before x behind => exact delete before x behind
  | delete before x behind => exact insert before x behind
  | replace before x y behind => exact replace before y x behind

namespace Edits

theorem trans (first : Edits m a b) (later : Edits n b c) : Edits (m + n) a c := by
  induction first with
  | done a =>
    rw [Nat.zero_add]
    exact later
  | edit next _ ih =>
    rw [Nat.add_right_comm]
    exact edit next (ih later)

theorem symm (edits : Edits n a b) : Edits n b a := by
  induction edits with
  | done a => exact done a
  | edit first _ ih => exact ih.trans (edit first.symm (done _))

theorem zero_iff : Edits 0 a b ↔ a = b := by
  constructor
  · intro edits
    cases edits
    rfl
  · rintro rfl
    exact done a

end Edits

theorem edits_editDistance (a b : Bytes) : Edits (editDistance a b) a b := (editDistance_isLeast a b).1

theorem editDistance_le (edits : Edits n a b) : editDistance a b ≤ n := (editDistance_isLeast a b).2 edits

theorem editDistance_eq_zero_iff (a b : Bytes) : editDistance a b = 0 ↔ a = b := by
  rw [← Edits.zero_iff]
  constructor
  · intro zero
    rw [← zero]
    exact edits_editDistance a b
  · exact fun edits => Nat.le_zero.mp (editDistance_le edits)

theorem editDistance_comm (a b : Bytes) : editDistance a b = editDistance b a :=
  Nat.le_antisymm (editDistance_le (edits_editDistance b a).symm) (editDistance_le (edits_editDistance a b).symm)

theorem editDistance_triangle (a b c : Bytes) : editDistance a c ≤ editDistance a b + editDistance b c :=
  editDistance_le ((edits_editDistance a b).trans (edits_editDistance b c))

/-! ### Two rows -/

namespace EditDistance

variable {text : Bytes}

/-- The entries of a row up to this column are the costs of a word against the prefixes of the text. -/
def Holds (a text : Bytes) (row : Vector Nat (text.length + 1)) (column : Nat) : Prop :=
  ∀ k, ∀ inside : k < text.length + 1, k ≤ column → row[k] = backward a (text.take k)

theorem holds_range (text : Bytes) : Holds [] text (Vector.range (text.length + 1)) text.length := by
  intro k inside _
  rw [Vector.getElem_range, backward_nil_left, List.length_take_of_le (Nat.le_of_lt_succ inside)]

/-- Whatever the lower row held, a column of it depends on the upper row and on the columns before it alone. -/
theorem holds_fill (rows : Rows (text.length + 1)) (above : Holds a text rows.above text.length) (x : UInt8)
    (column : Nat) (inside : column ≤ text.length) :
    Holds (a ++ [x]) text (rows.fill (a.length + 1) x column inside) column := by
  -- The columns behind this one are left as they were, so nothing is said of them.
  induction column with
  | zero =>
    intro k bound le
    obtain rfl := Nat.le_zero.mp le
    rw [Rows.fill, Vector.getElem_set_self, List.take_zero, backward_nil_right, List.length_append,
      List.length_singleton]
  | succ column ih =>
    intro k bound le
    have done := ih (Nat.le_of_succ_le inside)
    rw [Rows.fill]
    rcases Nat.lt_or_eq_of_le le with earlier | rfl
    · rw [Vector.getElem_set_ne _ _ (Nat.ne_of_gt earlier)]
      exact done k bound (Nat.le_of_lt_succ earlier)
    · rw [Vector.getElem_set_self, above (column + 1) bound inside, above column _ (Nat.le_of_succ_le inside),
        done column _ (Nat.le_refl _), List.take_succ_eq_append_getElem inside, backward_concat]

theorem holds_passes (rows : Rows (text.length + 1)) (above : Holds a text rows.above text.length) (rest : Bytes) :
    Holds (a ++ rest) text (rows.passes (a.length + 1) rest).above text.length := by
  induction rest generalizing a rows with
  | nil => rwa [List.append_nil]
  | cons x rest ih =>
    have next : Holds (a ++ [x]) text (rows.pass (a.length + 1) x).above text.length :=
      holds_fill rows above x text.length (Nat.le_refl _)
    have all := ih (rows.pass (a.length + 1) x) next
    rw [List.length_append, List.length_singleton, List.append_assoc] at all
    exact all

theorem inPlace_eq_editDistance (a text : Bytes) (stale : Vector Nat (text.length + 1)) :
    inPlace a text stale = editDistance a text := by
  have filled := holds_passes ⟨Vector.range (text.length + 1), stale⟩ (holds_range text) a
  have last := filled text.length (Nat.lt_succ_self _) (Nat.le_refl _)
  rw [List.nil_append, List.take_length] at last
  rw [editDistance_eq_backward]
  exact last

end EditDistance

/-- The distance is the length of the shortest scripts, hence a metric. Two rows are enough to compute it, whatever
the second holds at first. -/
theorem editDistance_metric (a b : Bytes) :
    IsLeast {n | Edits n a b} (editDistance a b) ∧
      (∀ stale, EditDistance.inPlace a b stale = editDistance a b) ∧
      (editDistance a b = 0 ↔ a = b) ∧
      editDistance a b = editDistance b a ∧
      ∀ c, editDistance a c ≤ editDistance a b + editDistance b c :=
  ⟨editDistance_isLeast a b, EditDistance.inPlace_eq_editDistance a b, editDistance_eq_zero_iff a b,
    editDistance_comm a b, editDistance_triangle a b⟩

example : editDistance (ascii "kitten") (ascii "sitting") = 3 := by decide

end QueryService
