import Mathlib.Data.List.Nodup
import QueryService.Proofs.Statement.Segmentation
import QueryService.Statement.Listing

/-!
# Entries and their numbers

No two entries of a list share a number, and numbers are never given out again. Replacing an entry
therefore changes the place where it stands and no other, and a pass over the entries of a list reaches
each of them however many were replaced on the way (`statements_foldl`).
-/

namespace QueryService

theorem map_eq_self {α : Type} {f : α → α} {items : List α} (same : ∀ x ∈ items, f x = x) : items.map f = items :=
  (List.map_congr_left same).trans (List.map_id items)

namespace Listing

variable {l : Listing} {e : Entry} {before behind : List Entry} {s : Statement}

def statements (l : Listing) : List Statement := l.entries.map (·.statement)

/-- Each entry has a number of its own, given out before. -/
structure Numbered (l : Listing) : Prop where
  distinct : (l.entries.map (·.identity)).Nodup
  used : ∀ e ∈ l.entries, e.identity < l.fresh

theorem numbered_parse (fresh : Nat) (text : Bytes) : (parse fresh text).Numbered := by
  have numbers : (parse fresh text).entries.map (·.identity) = List.range' fresh (Statement.parse text).length := by
    rw [parse, List.map_map]
    exact List.zipIdx_map_snd fresh _
  refine ⟨?_, ?_⟩
  · rw [numbers]
    exact List.nodup_range'
  · intro e member
    have number : e.identity ∈ List.range' fresh (Statement.parse text).length := by
      rw [← numbers]
      exact List.mem_map_of_mem member
    exact (List.mem_range'_1.mp number).2

theorem statements_parse (fresh : Nat) (text : Bytes) : (parse fresh text).statements = Statement.parse text := by
  rw [statements, parse, List.map_map]
  exact List.zipIdx_map_fst fresh _

theorem replace_of_absent (absent : ∀ other ∈ l.entries, other.identity ≠ e.identity) (s : Statement) :
    l.replace e s = l := by
  rw [replace, if_neg]
  rw [List.any_eq_true]
  rintro ⟨other, member, number⟩
  exact absent other member (eq_of_beq number)

theorem replace_of_other {other : Entry} {i : Nat} (there : l.entries[i]? = some other)
    (differs : other.identity ≠ e.identity) (s : Statement) : (l.replace e s).entries[i]? = some other := by
  unfold replace
  split
  · rw [List.getElem?_map, there, Option.map_some, if_neg differs]
  · exact there

theorem replace_entries (numbered : l.Numbered) (split : l.entries = before ++ e :: behind) (s : Statement) :
    (l.replace e s).entries = before ++ ⟨l.fresh, s⟩ :: behind := by
  have distinct := numbered.distinct
  rw [split, List.map_append, List.map_cons, List.nodup_middle, List.nodup_cons, List.mem_append, not_or] at distinct
  have keep {entries : List Entry} (absent : e.identity ∉ entries.map (·.identity)) :
      entries.map (fun other => if other.identity = e.identity then (⟨l.fresh, s⟩ : Entry) else other) =
        entries := by
    refine map_eq_self fun other member => ?_
    rw [if_neg]
    intro same
    exact absent (same ▸ List.mem_map_of_mem member)
  have present : l.entries.any (·.identity == e.identity) = true := by
    rw [split]
    simp
  rw [replace, if_pos present, split, List.map_append, List.map_cons, keep distinct.1.1, keep distinct.1.2,
    if_pos rfl]

theorem numbered_replace (numbered : l.Numbered) (split : l.entries = before ++ e :: behind) (s : Statement) :
    (l.replace e s).Numbered := by
  have entries := replace_entries numbered split s
  have fresh : (l.replace e s).fresh = l.fresh + 1 := by
    rw [replace, if_pos]
    rw [split]
    simp
  have kept (other : Entry) (member : other ∈ before ++ behind) : other.identity < l.fresh := by
    apply numbered.used
    rw [split]
    rcases List.mem_append.mp member with earlier | later
    · exact List.mem_append_left _ earlier
    · exact List.mem_append_right _ (List.mem_cons_of_mem e later)
  have distinct := numbered.distinct
  rw [split, List.map_append, List.map_cons, List.nodup_middle, List.nodup_cons, ← List.map_append] at distinct
  refine ⟨?_, ?_⟩
  · rw [entries, List.map_append, List.map_cons, List.nodup_middle, List.nodup_cons, ← List.map_append]
    refine ⟨?_, distinct.2⟩
    intro taken
    obtain ⟨other, member, same⟩ := List.mem_map.mp taken
    exact absurd same (Nat.ne_of_lt (kept other member))
  · intro other member
    rw [fresh]
    rw [entries, List.mem_append, List.mem_cons] at member
    rcases member with earlier | rfl | later
    · exact Nat.lt_succ_of_lt (kept other (List.mem_append_left _ earlier))
    · exact Nat.lt_succ_self _
    · exact Nat.lt_succ_of_lt (kept other (List.mem_append_right _ later))

theorem mem_replace {made : Statement} (member : s ∈ (l.replace e made).statements) :
    s = made ∨ s ∈ l.statements := by
  obtain ⟨entry, listed, rfl⟩ := List.mem_map.mp member
  unfold replace at listed
  split at listed
  · obtain ⟨old, kept, rfl⟩ := List.mem_map.mp listed
    split
    · exact Or.inl rfl
    · exact Or.inr (List.mem_map_of_mem kept)
  · exact Or.inr (List.mem_map_of_mem listed)

/-- A pass over the last entries of a list, where each step replaces its entry or changes nothing, makes
of each entry what its step makes of it. -/
theorem statements_foldl {σ : Type} (step : σ → Entry → σ) (listing : σ → Listing) (Good : σ → Prop)
    {result : Entry → Statement} (keeps : ∀ a e, Good a → Good (step a e))
    (acts : ∀ a e, Good a → listing (step a e) = (listing a).replace e (result e) ∨
      listing (step a e) = listing a ∧ result e = e.statement)
    {a : σ} (good : Good a) (numbered : (listing a).Numbered) (before : List Entry)
    (split : (listing a).entries = before ++ behind) :
    (listing (behind.foldl step a)).Numbered ∧
      (listing (behind.foldl step a)).statements = before.map (·.statement) ++ behind.map result := by
  induction behind generalizing a before with
  | nil =>
    refine ⟨numbered, ?_⟩
    rw [List.foldl_nil, statements, split, List.append_nil, List.map_nil, List.append_nil]
  | cons e behind ih =>
    rw [List.foldl_cons]
    rcases acts a e good with replaced | ⟨same, result_eq⟩
    · have entries := replace_entries numbered split (result e)
      have next := ih (keeps a e good) (by rw [replaced]; exact numbered_replace numbered split _)
        (before ++ [⟨(listing a).fresh, result e⟩])
        (by rw [replaced, entries, List.append_assoc]; rfl)
      refine ⟨next.1, ?_⟩
      rw [next.2, List.map_append, List.append_assoc]
      rfl
    · have next := ih (keeps a e good) (by rw [same]; exact numbered) (before ++ [e])
        (by rw [same, split, List.append_assoc]; rfl)
      refine ⟨next.1, ?_⟩
      rw [next.2, List.map_append, List.append_assoc, List.map_cons (f := result), result_eq]
      rfl

end Listing
end QueryService
