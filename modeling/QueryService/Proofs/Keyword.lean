import Mathlib.Algebra.Group.Nat.Defs
import Mathlib.Data.List.Chain
import QueryService.Keyword
import QueryService.Proofs.Text.Case

/-!
# Looking up keywords

In a table of strictly ascending lexemes the entry sought stays between the two bounds of the search
(`Within.left`, `Within.right`), which come to half their distance in every round. So the search finds the entry of
every lexeme that has one (`answers_search`). A word is an entry of the table of keywords in upper case, and no
entry is empty or too long for the lookup, so it misses none (`lookup_exact`).
-/

namespace QueryService
namespace Keyword

variable {table : Array Keyword} {lexeme : Bytes} {answer : Option Keyword} {first last rounds i j : Nat}

/-- The answer is the entry with this lexeme, if the table has one. -/
structure Answers (table : Array Keyword) (lexeme : Bytes) (answer : Option Keyword) : Prop where
  found : ∀ entry, answer = some entry ↔ entry ∈ table.toList ∧ entry.lexeme = lexeme
  absent : answer = none ↔ ∀ entry ∈ table.toList, entry.lexeme ≠ lexeme

/-- Where the search between two bounds looks. -/
def middle (first last : Nat) : Nat := first + (last - first) / 2

/-- The search between two bounds ends with this answer after so many looks at the table. -/
inductive Halving (table : Array Keyword) (lexeme : Bytes) : Nat → Nat → Nat → Option Keyword → Prop
  | empty {first last : Nat} (closed : last ≤ first) : Halving table lexeme 0 first last none
  | hit {first last : Nat} {entry : Keyword} (between : first < last)
      (read : table[middle first last]? = some entry) (same : entry.lexeme = lexeme) :
      Halving table lexeme 1 first last (some entry)
  | right {first last rounds : Nat} {entry : Keyword} {answer : Option Keyword} (between : first < last)
      (read : table[middle first last]? = some entry) (before : entry.lexeme < lexeme)
      (later : Halving table lexeme rounds (middle first last + 1) last answer) :
      Halving table lexeme (rounds + 1) first last answer
  | left {first last rounds : Nat} {entry : Keyword} {answer : Option Keyword} (between : first < last)
      (read : table[middle first last]? = some entry) (behind : lexeme < entry.lexeme)
      (later : Halving table lexeme rounds first (middle first last) answer) :
      Halving table lexeme (rounds + 1) first last answer

/-! ### Order -/

/-- The order of the table. -/
def Before (a b : Keyword) : Prop := a.lexeme < b.lexeme

instance : Trans Before Before Before := ⟨List.lt_trans⟩

/-- Neighbours are enough to tell whether a table is sorted. -/
theorem inOrder_iff_sorted (table : Array Keyword) : inOrder table.toList = true ↔ Sorted table := by
  have chain (entries : List Keyword) : inOrder entries = true ↔ entries.IsChain Before := by
    fun_induction inOrder entries with
    | case1 a b rest ih => rw [Bool.and_eq_true, decide_eq_true_eq, List.isChain_cons_cons, ih, Before]
    | case2 entries single =>
      match entries, single with
      | [], _ => exact iff_of_true rfl .nil
      | [a], _ => exact iff_of_true rfl (.singleton a)
      | a :: b :: rest, single => exact (single a b rest rfl).elim
  rw [chain, List.isChain_iff_pairwise]
  rfl

theorem lt_of_not_lt {a b : Bytes} (apart : a ≠ b) (unordered : ¬ a < b) : b < a := by
  rcases Std.lt_trichotomy a b with before | same | behind
  · exact (unordered before).elim
  · exact (apart same).elim
  · exact behind

namespace Sorted

variable (sorted : Sorted table)
include sorted

theorem lt (before : i < j) (inside : j < table.size) : table[i].lexeme < table[j].lexeme :=
  List.pairwise_iff_getElem.mp sorted i j (Nat.lt_trans before inside) inside before

theorem not_lt (le : i ≤ j) (inside : j < table.size) : ¬ table[j].lexeme < table[i].lexeme := by
  intro falls
  rcases Nat.lt_or_eq_of_le le with before | rfl
  · exact List.lt_irrefl _ (List.lt_trans falls (sorted.lt before inside))
  · exact List.lt_irrefl _ falls

theorem index_eq (left : i < table.size) (right : j < table.size) (same : table[i].lexeme = table[j].lexeme) :
    i = j := by
  rcases Nat.lt_trichotomy i j with before | equal | behind
  · have rises := sorted.lt before right
    rw [same] at rises
    exact (List.lt_irrefl _ rises).elim
  · exact equal
  · have rises := sorted.lt behind left
    rw [same] at rises
    exact (List.lt_irrefl _ rises).elim

end Sorted

/-! ### The search -/

/-- The entries with this lexeme stand between the two bounds. -/
def Within (table : Array Keyword) (lexeme : Bytes) (first last : Nat) : Prop :=
  ∀ i, ∀ inside : i < table.size, table[i].lexeme = lexeme → first ≤ i ∧ i < last

theorem Within.right (sorted : Sorted table) (within : Within table lexeme first last) (inside : i < table.size)
    (before : table[i].lexeme < lexeme) : Within table lexeme (i + 1) last := by
  intro j bound same
  refine ⟨Nat.lt_of_not_le fun le => ?_, (within j bound same).2⟩
  rw [← same] at before
  exact sorted.not_lt le inside before

theorem Within.left (sorted : Sorted table) (within : Within table lexeme first last) (inside : i < table.size)
    (behind : lexeme < table[i].lexeme) : Within table lexeme first i := by
  intro j bound same
  refine ⟨(within j bound same).1, Nat.lt_of_not_le fun le => ?_⟩
  rw [← same] at behind
  exact sorted.not_lt le bound behind

theorem answers_of_hit (sorted : Sorted table) (inside : i < table.size) (same : table[i].lexeme = lexeme) :
    Answers table lexeme (some table[i]) where
  found := by
    intro entry
    rw [Option.some.injEq]
    constructor
    · rintro rfl
      exact ⟨Array.getElem_mem_toList inside, same⟩
    · rintro ⟨listed, spelled⟩
      obtain ⟨j, bound, rfl⟩ := List.getElem_of_mem listed
      rw [Array.getElem_toList] at spelled ⊢
      obtain rfl := sorted.index_eq inside bound (same.trans spelled.symm)
      rfl
  absent := iff_of_false (Option.some_ne_none _) fun none => none _ (Array.getElem_mem_toList inside) same

theorem answers_none (missing : ∀ entry ∈ table.toList, entry.lexeme ≠ lexeme) : Answers table lexeme none where
  found entry := iff_of_false nofun fun ⟨listed, same⟩ => missing entry listed same
  absent := iff_of_true rfl missing

theorem answers_of_closed (within : Within table lexeme first last) (closed : last ≤ first) :
    Answers table lexeme none := by
  refine answers_none fun entry listed same => ?_
  obtain ⟨i, bound, rfl⟩ := List.getElem_of_mem listed
  have placed := within i bound same
  omega

theorem answers_of_halving (sorted : Sorted table) (within : Within table lexeme first last)
    (halving : Halving table lexeme rounds first last answer) : Answers table lexeme answer := by
  induction halving with
  | empty closed => exact answers_of_closed within closed
  | hit between read same =>
    obtain ⟨inside, rfl⟩ := Array.getElem?_eq_some_iff.mp read
    exact answers_of_hit sorted inside same
  | right between read before _ ih =>
    obtain ⟨inside, rfl⟩ := Array.getElem?_eq_some_iff.mp read
    exact ih (within.right sorted inside before)
  | left between read behind _ ih =>
    obtain ⟨inside, rfl⟩ := Array.getElem?_eq_some_iff.mp read
    exact ih (within.left sorted inside behind)

/-- The search ends on every table, be it sorted or not. -/
theorem halving_searchBetween (table : Array Keyword) (lexeme : Bytes) (first last : Nat)
    (bound : last ≤ table.size) (limit : Nat) (near : last - first < 2 ^ limit) :
    ∃ rounds ≤ limit, Halving table lexeme rounds first last (searchBetween table lexeme first last bound) := by
  -- A round leaves less than half of an interval, so the limit goes down by one with it.
  fun_induction searchBetween table lexeme first last bound generalizing limit with
  | case1 first last bound between middle inside entry same =>
    obtain _ | limit := limit
    · omega
    · exact ⟨1, Nat.succ_le_succ (Nat.zero_le limit), .hit between (Array.getElem?_eq_getElem inside) same⟩
  | case2 first last bound between middle inside entry apart before ih =>
    obtain _ | limit := limit
    · omega
    · rw [Nat.pow_succ] at near
      obtain ⟨rounds, few, later⟩ := ih limit (by omega)
      exact ⟨rounds + 1, Nat.succ_le_succ few, .right between (Array.getElem?_eq_getElem inside) before later⟩
  | case3 first last bound between middle inside entry apart unordered ih =>
    obtain _ | limit := limit
    · omega
    · rw [Nat.pow_succ] at near
      obtain ⟨rounds, few, later⟩ := ih limit (by omega)
      exact ⟨rounds + 1, Nat.succ_le_succ few,
        .left between (Array.getElem?_eq_getElem inside) (lt_of_not_lt apart unordered) later⟩
  | case4 first last bound closed => exact ⟨0, Nat.zero_le _, .empty (Nat.not_lt.mp closed)⟩

theorem halving_search (table : Array Keyword) (lexeme : Bytes) :
    ∃ rounds ≤ Nat.log2 table.size + 1, Halving table lexeme rounds 0 table.size (search table lexeme) :=
  halving_searchBetween table lexeme 0 table.size _ _ Nat.lt_log2_self

theorem answers_search (sorted : Sorted table) (lexeme : Bytes) : Answers table lexeme (search table lexeme) := by
  obtain ⟨rounds, -, halving⟩ := halving_search table lexeme
  exact answers_of_halving sorted (fun i inside _ => ⟨Nat.zero_le i, inside⟩) halving

/-! ### The keywords -/

theorem length_table : ∀ entry ∈ Keyword.table.toList, 0 < entry.lexeme.length ∧ entry.lexeme.length ≤ maxLength := by
  decide

theorem answers_lookup (word : Bytes) : Answers Keyword.table (Bytes.toUpper word) (lookup word) := by
  rw [lookup]
  split
  · next unlikely =>
    refine answers_none fun entry listed same => ?_
    obtain ⟨positive, short⟩ := length_table entry listed
    rw [same, Bytes.length_toUpper] at positive short
    rw [Bool.or_eq_true, List.isEmpty_iff_length_eq_zero, decide_eq_true_eq] at unlikely
    omega
  · exact answers_search sorted_table _

/-- The comparison of neighbours accepts the strictly sorted tables. In these the search ends, after at most one round
for each binary digit of the size, with the entry of the lexeme, or with none if no entry has it. The lookup ends with
the entry that is the word in upper case, or with none if there is no such entry, however long the word is. -/
theorem lookup_exact :
    (∀ table : Array Keyword, (inOrder table.toList = true ↔ Sorted table) ∧
      (Sorted table → ∀ lexeme,
        (∃ rounds ≤ Nat.log2 table.size + 1, Halving table lexeme rounds 0 table.size (search table lexeme)) ∧
          Answers table lexeme (search table lexeme))) ∧
      ∀ word, Answers Keyword.table (Bytes.toUpper word) (lookup word) := by
  refine ⟨fun table => ⟨inOrder_iff_sorted table, fun sorted lexeme => ?_⟩, answers_lookup⟩
  exact ⟨halving_search table lexeme, answers_search sorted lexeme⟩

/-- Lexemes that begin with one another: `INDEX` is found between `IN` and `INNER`, and `IND` is not there. -/
theorem nested_lexemes_found :
    let table : Array Keyword :=
      #[⟨ascii "IN", .manipulation, []⟩, ⟨ascii "INDEX", .object, []⟩, ⟨ascii "INNER", .query, []⟩]
    Sorted table ∧ search table (ascii "INDEX") = some ⟨ascii "INDEX", .object, []⟩ ∧
      search table (ascii "IND") = none ∧
      (∃ keyword, lookup (ascii "Invalidate") = some keyword ∧ keyword.lexeme = ascii "INVALIDATE") ∧
      lookup (ascii "invalidated") = none := by
  intro table
  obtain ⟨tables, words⟩ := lookup_exact
  have sorted : Sorted table := (tables table).1.mp (by decide)
  have answers := (tables table).2 sorted
  have invalidate : (⟨ascii "INVALIDATE", .administration, ascii "Invalidates a session"⟩ : Keyword) ∈
      Keyword.table.toList := by decide
  have found := ((words (ascii "Invalidate")).found _).mpr ⟨invalidate, by decide⟩
  refine ⟨sorted, ?_, ?_, ⟨_, found, rfl⟩, ?_⟩
  · exact ((answers (ascii "INDEX")).2.found _).mpr ⟨by decide, rfl⟩
  · exact (answers (ascii "IND")).2.absent.mpr (by decide)
  · exact (words (ascii "invalidated")).absent.mpr (by decide)

end Keyword
end QueryService
