import Mathlib.Computability.Language
import QueryService.Proofs.Text.Bytes

/-!
# Longest prefixes in a language

A scanner that takes what it can reads a product of languages part by part. It finds the longest prefix if
the later part cannot begin inside the earlier one (`Longest.mul`), or if the later part is a run of bytes of
one class (`Longest.mul_run`).
-/

namespace QueryService
open Computability

variable {α : Type} {p : α → Bool} {language first second : Language α} {text value : List α}

/-- The lists of one symbol of a class. -/
def oneOf (p : α → Bool) : Language α := {text | ∃ c, p c = true ∧ text = [c]}

/-- The value is the longest prefix of the text that the language has. -/
structure Longest (language : Language α) (text value : List α) : Prop where
  ahead : value <+: text
  member : value ∈ language
  greatest : ∀ other, other <+: text → other ∈ language → other.length ≤ value.length

/-- No list of the second language can begin inside one of the first. -/
def Separated (first second : Language α) : Prop := ∀ c later, c :: later ∈ second → ∀ x ∈ first, c ∉ x

/-- No prefix of the text is in the language. -/
def Absent (language : Language α) (text : List α) : Prop := ∀ value, value <+: text → value ∉ language

/-! ### Classes of symbols -/

theorem cons_mem_oneOf_mul {c : α} : c :: text ∈ oneOf p * language ↔ p c = true ∧ text ∈ language := by
  rw [Language.mem_mul]
  constructor
  · rintro ⟨_, ⟨d, member, rfl⟩, later, more, same⟩
    obtain ⟨rfl, rfl⟩ := List.cons.inj same
    exact ⟨member, more⟩
  · rintro ⟨member, more⟩
    exact ⟨[c], ⟨c, member, rfl⟩, text, more, rfl⟩

theorem nil_notMem_oneOf_mul : [] ∉ oneOf p * language := by
  rw [Language.mem_mul]
  rintro ⟨_, ⟨c, _, rfl⟩, later, _, same⟩
  exact List.cons_ne_nil _ _ same

theorem mem_run : text ∈ (oneOf p)∗ ↔ ∀ c ∈ text, p c = true := by
  induction text with
  | nil => simp [Language.nil_mem_kstar]
  | cons c later ih =>
    rw [← Language.one_add_self_mul_kstar_eq_kstar, Language.mem_add, Language.mem_one, cons_mem_oneOf_mul, ih]
    simp

theorem mem_oneOf_pow {n : Nat} : text ∈ oneOf p ^ n ↔ text.length = n ∧ ∀ c ∈ text, p c = true := by
  induction n generalizing text with
  | zero => simp +contextual [List.length_eq_zero_iff]
  | succ n ih =>
    rw [pow_succ']
    cases text with
    | nil => simp [nil_notMem_oneOf_mul]
    | cons c later => simp [cons_mem_oneOf_mul, ih, and_left_comm]

namespace Separated

theorem of_class {q : α → Bool} (made : ∀ x ∈ first, ∀ c ∈ x, p c = true) (disjoint : ∀ c, q c = true → p c = false) :
    Separated first (oneOf q * second) := by
  intro c later begins x member inside
  have outside := disjoint c (cons_mem_oneOf_mul.mp begins).1
  rw [made x member c inside] at outside
  cases outside

theorem optional (separated : Separated first second) : Separated first (1 + second) := by
  intro c later begins
  exact separated c later (begins.resolve_left (List.cons_ne_nil c later))

theorem add {third : Language α} (separated : Separated first second) (also : Separated first third) :
    Separated first (second + third) := fun c later begins => begins.elim (separated c later) (also c later)

end Separated

namespace Absent

theorem add (absent : Absent first text) (also : Absent second text) : Absent (first + second) text :=
  fun value ahead member => member.elim (absent value ahead) (also value ahead)

theorem nil (lacking : [] ∉ language) : Absent language [] := by
  intro value ahead
  rwa [List.prefix_nil.mp ahead]

theorem single {c : α} (other : ¬ p c = true) (rest : List α) : Absent (oneOf p) (c :: rest) := by
  rintro _ ahead ⟨d, member, rfl⟩
  rw [(List.cons_prefix_cons.mp ahead).1] at member
  exact other member

/-- A language whose lists begin with a symbol of one class has no prefix of a text that begins otherwise or
does not go on as it should. -/
theorem oneOf_mul {c : α} {rest : List α} (absent : p c = true → Absent language rest) :
    Absent (oneOf p * language) (c :: rest) := by
  intro value ahead member
  rcases List.prefix_cons_iff.mp ahead with rfl | ⟨later, rfl, inside⟩
  · exact nil_notMem_oneOf_mul member
  · obtain ⟨head, more⟩ := cons_mem_oneOf_mul.mp member
    exact absent head later inside more

end Absent

/-! ### Longest prefixes of composed languages -/

namespace Longest

theorem one {c : α} (head : p c = true) (rest : List α) : Longest (oneOf p) (c :: rest) [c] where
  ahead := ⟨rest, rfl⟩
  member := ⟨c, head, rfl⟩
  greatest := by
    rintro _ _ ⟨d, _, rfl⟩
    exact Nat.le_refl 1

/-- A text that the language has is its own longest prefix. -/
theorem eq_of_mem (longest : Longest language text value) (member : text ∈ language) : value = text :=
  longest.ahead.eq_of_length_le (longest.greatest text (List.prefix_refl text) member)

theorem add_left (longest : Longest first text value) (absent : Absent second text) :
    Longest (first + second) text value where
  ahead := longest.ahead
  member := Or.inl longest.member
  greatest other ahead member :=
    longest.greatest other ahead (member.resolve_right (absent other ahead))

theorem add_right (longest : Longest second text value) (absent : Absent first text) :
    Longest (first + second) text value where
  ahead := longest.ahead
  member := Or.inr longest.member
  greatest other ahead member :=
    longest.greatest other ahead (member.resolve_left (absent other ahead))

theorem optional (longest : Longest language text value) : Longest (1 + language) text value where
  ahead := longest.ahead
  member := Or.inr longest.member
  greatest other ahead member := by
    rcases member with none | member
    · rw [(Language.mem_one other).mp none]
      exact Nat.zero_le _
    · exact longest.greatest other ahead member

theorem none (absent : Absent language text) : Longest (1 + language) text [] where
  ahead := List.nil_prefix
  member := Or.inl rfl
  greatest other ahead member := by
    rw [(Language.mem_one other).mp (member.resolve_right (absent other ahead))]

/-- Behind a symbol of a class the longest prefix goes on with the longest one there. -/
theorem cons {c : α} {rest : List α} (head : p c = true) (behind : Longest second rest value) :
    Longest (oneOf p * second) (c :: rest) (c :: value) where
  ahead := List.cons_prefix_cons.mpr ⟨rfl, behind.ahead⟩
  member := cons_mem_oneOf_mul.mpr ⟨head, behind.member⟩
  greatest other ahead member := by
    rcases List.prefix_cons_iff.mp ahead with rfl | ⟨later, rfl, inside⟩
    · exact Nat.zero_le _
    · exact Nat.succ_le_succ (behind.greatest later inside (cons_mem_oneOf_mul.mp member).2)

theorem cons_take {c : α} {rest : List α} {n : Nat} (head : p c = true) (behind : Longest second rest (rest.take n)) :
    Longest (oneOf p * second) (c :: rest) ((c :: rest).take (1 + n)) := by
  rw [Nat.add_comm, List.take_succ_cons]
  exact cons head behind

/-- The longest prefix in a product is made of the longest prefixes in its parts, if these are separated. -/
theorem mul {m n : Nat} (separated : Separated first second) (longest : Longest first text (text.take m))
    (behind : Longest second (text.drop m) ((text.drop m).take n)) :
    Longest (first * second) text (text.take (m + n)) where
  ahead := List.take_prefix _ _
  member := by
    rw [List.take_add]
    exact Language.append_mem_mul longest.member behind.member
  greatest other ahead member := by
    obtain ⟨x, begins, y, goesOn, rfl⟩ := Language.mem_mul.mp member
    have inside : x <+: text := (List.prefix_append x y).trans ahead
    rw [List.take_add, List.length_append, List.length_append]
    rcases Nat.lt_or_ge x.length (text.take m).length with short | whole
    · cases y with
      | nil => exact Nat.le_add_right_of_le (Nat.le_of_lt short)
      | cons c later =>
        -- The byte behind `x` is one of the first part.
        have next : x ++ [c] <+: text := by
          refine List.IsPrefix.trans ?_ ahead
          exact (List.prefix_append_right_inj x).mpr ⟨later, rfl⟩
        have taken : x ++ [c] <+: text.take m := by
          refine List.prefix_of_prefix_length_le next (List.take_prefix m text) ?_
          rw [List.length_append]
          exact short
        exact absurd (taken.subset (by simp)) (separated c later goesOn _ longest.member)
    · have same : x = text.take m :=
        (List.prefix_of_prefix_length_le (List.take_prefix m text) inside whole).eq_of_length_le
          (longest.greatest x inside begins) |>.symm
      rw [← List.take_append_drop m text, same, List.prefix_append_right_inj] at ahead
      rw [same]
      exact Nat.add_le_add_left (behind.greatest y ahead goesOn) _

/-- The same, counted behind the first symbol. -/
theorem mul_cons {m n : Nat} {c : α} {rest : List α} (separated : Separated first second)
    (longest : Longest first (c :: rest) ((c :: rest).take (m + 1)))
    (behind : Longest second (rest.drop m) ((rest.drop m).take n)) :
    Longest (first * second) (c :: rest) ((c :: rest).take (m + n + 1)) := by
  rw [Nat.add_right_comm]
  exact mul separated longest behind

/-- Bytes of one class behind the longest prefix in a language belong to the longest prefix in the product. -/
theorem mul_run {language : Language UInt8} {text : Bytes} {m : Nat} (longest : Longest language text (text.take m))
    (le : m ≤ text.length) (p : UInt8 → Bool) :
    Longest (language * (oneOf p)∗) text (text.take (m + Bytes.run p (text.drop m))) where
  ahead := List.take_prefix _ _
  member := by
    rw [List.take_add]
    exact Language.append_mem_mul longest.member (mem_run.mpr fun c => Bytes.mem_take_run)
  greatest other ahead member := by
    obtain ⟨x, begins, y, goesOn, rfl⟩ := Language.mem_mul.mp member
    have shorter := longest.greatest x ((List.prefix_append x y).trans ahead) begins
    have length := ahead.length_le
    have beyond : (text.drop m).take ((x ++ y).length - m) = y.drop (m - x.length) := by
      rw [← List.drop_take, ← List.prefix_iff_eq_take.mp ahead, List.drop_append,
        List.drop_eq_nil_of_le (by rw [List.length_take] at shorter; omega), List.nil_append]
    have run : (x ++ y).length - m ≤ Bytes.run p (text.drop m) := by
      refine Bytes.le_run (by rw [List.length_drop]; omega) fun c inside => ?_
      rw [beyond] at inside
      exact mem_run.mp goesOn c (List.mem_of_mem_drop inside)
    rw [List.length_take]
    omega

/-- A byte of one class and the run of bytes of another class behind it. -/
theorem led {p : UInt8 → Bool} {c : UInt8} (head : p c = true) (q : UInt8 → Bool) (rest : Bytes) :
    Longest (oneOf p * (oneOf q)∗) (c :: rest) (c :: rest.take (Bytes.run q rest)) := by
  have whole := mul_run (m := 1) (one head rest) (by simp) q
  rwa [Nat.add_comm] at whole

end Longest
end QueryService
