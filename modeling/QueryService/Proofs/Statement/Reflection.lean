import QueryService.Grammar.Validation
import QueryService.Proofs.Statement.Numbering

/-!
# Lists that reflect a text

However often its entries are replaced, a list shows the statements of its text, and of a clean one the
verdict on its code (`Reflects`). An entry that was listed before is gone from a later list or is still
the same there (`Follows.same`), so a change that is aimed at it from an old list cannot hit another one.
-/

namespace QueryService
namespace Statement

/-- The statement as its text gives it, with nothing known of its validity. -/
def unvalidated (s : Statement) : Statement := { s with dirty := true, valid := false }

/-- A clean statement has the verdict of its code. -/
def Judged (s : Statement) : Prop := s.dirty = false → s.valid = (validate (tokenize s.code)).valid

theorem parse_unvalidated {text : Bytes} {s : Statement} (member : s ∈ parse text) : s.unvalidated = s := by
  obtain ⟨piece, _, _, rfl⟩ := exists_segment member
  rfl

theorem parse_judged {text : Bytes} {s : Statement} (member : s ∈ parse text) : s.Judged := by
  intro clean
  rw [(parse_tokens member).2] at clean
  cases clean

end Statement

namespace Listing

variable {l l' l'' : Listing} {e : Entry} {s : Statement} {text : Bytes}

/-! ### Entries of earlier lists -/

/-- The list `l'` comes after `l`: it gives no number of `l` to another entry. -/
structure Follows (l l' : Listing) : Prop where
  fresh : l.fresh ≤ l'.fresh
  kept : ∀ e ∈ l'.entries, e.identity < l.fresh → e ∈ l.entries

theorem Follows.refl (l : Listing) : l.Follows l := ⟨Nat.le_refl _, fun _ member _ => member⟩

theorem Follows.trans (first : l.Follows l') (second : l'.Follows l'') : l.Follows l'' where
  fresh := Nat.le_trans first.fresh second.fresh
  kept e member old := first.kept e (second.kept e member (Nat.lt_of_lt_of_le old first.fresh)) old

theorem follows_replace (l : Listing) (e : Entry) (s : Statement) : l.Follows (l.replace e s) := by
  unfold replace
  split
  · refine ⟨Nat.le_succ _, fun other member old => ?_⟩
    obtain ⟨before, listed, rfl⟩ := List.mem_map.mp member
    split at old
    · exact absurd old (Nat.lt_irrefl _)
    · rename_i differs
      rw [if_neg differs]
      exact listed
  · exact Follows.refl l

theorem follows_parse (l : Listing) (text : Bytes) : l.Follows (parse l.fresh text) where
  fresh := Nat.le_add_right _ _
  kept e member old := by
    obtain ⟨⟨s, number⟩, listed, rfl⟩ := List.mem_map.mp member
    exact absurd old (Nat.not_lt.mpr (List.mk_mem_zipIdx_iff_le_and_getElem?_sub.mp listed).1)

/-- What stands in a later list with the number of an earlier entry is that entry. -/
theorem Follows.same (follows : l.Follows l') (numbered : l.Numbered) (member : e ∈ l.entries) {other : Entry}
    (listed : other ∈ l'.entries) (number : other.identity = e.identity) : other = e := by
  have old : other.identity < l.fresh := number ▸ numbered.used e member
  exact List.inj_on_of_nodup_map numbered.distinct (follows.kept other listed old) member number

/-! ### Replacing entries -/

structure Reflects (l : Listing) (text : Bytes) : Prop where
  numbered : l.Numbered
  parsed : l.statements.map Statement.unvalidated = Statement.parse text
  judged : ∀ s ∈ l.statements, s.Judged

theorem reflects_parse (fresh : Nat) (text : Bytes) : (parse fresh text).Reflects text where
  numbered := numbered_parse fresh text
  parsed := by
    rw [statements_parse]
    exact map_eq_self fun s member => Statement.parse_unvalidated member
  judged s member := by
    rw [statements_parse] at member
    exact Statement.parse_judged member

/-- A change of validity keeps a list true to its text, wherever the entry was taken from. -/
theorem Reflects.replace (reflects : l.Reflects text)
    (same : ∀ other ∈ l.entries, other.identity = e.identity → other = e)
    (place : s.unvalidated = e.statement.unvalidated) (judged : s.Judged) : (l.replace e s).Reflects text := by
  by_cases present : ∃ other ∈ l.entries, other.identity = e.identity
  · obtain ⟨other, member, number⟩ := present
    obtain rfl := same other member number
    obtain ⟨before, behind, split⟩ := List.append_of_mem member
    have replaced : (l.replace other s).statements = before.map (·.statement) ++ s :: behind.map (·.statement) := by
      rw [statements, replace_entries reflects.numbered split, List.map_append, List.map_cons]
    have listed : l.statements = before.map (·.statement) ++ other.statement :: behind.map (·.statement) := by
      rw [statements, split, List.map_append, List.map_cons]
    refine ⟨numbered_replace reflects.numbered split s, ?_, fun x member => ?_⟩
    · rw [← reflects.parsed, replaced, listed]
      simp only [List.map_append, List.map_cons, place]
    · have old := reflects.judged x
      rw [listed, List.mem_append, List.mem_cons] at old
      rw [replaced, List.mem_append, List.mem_cons] at member
      rcases member with earlier | rfl | later
      · exact old (Or.inl earlier)
      · exact judged
      · exact old (Or.inr (Or.inr later))
  · rw [replace_of_absent fun other member number => present ⟨other, member, number⟩]
    exact reflects

end Listing
end QueryService
