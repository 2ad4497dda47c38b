import QueryService.Proofs.Statement.Numbering

/-!
# The statement at a position

Which statement a position points at depends on the places of the statements alone, so it stays the same
when their validity changes. A statement of a text is known by the offset at which it begins.
-/

namespace QueryService
namespace Statement

variable {statements : List Statement} {f : Statement → Statement} {p : Position}

/-- The statement that a cursor touches, or else the first one on its line. -/
def at? (statements : List Statement) (p : Position) : Option Statement :=
  let onLine := statements.filter (·.onLine p.line)
  (onLine.find? (·.touches p)).or onLine.head?

/-- The position points at the statement that begins at `start`. -/
def Points (statements : List Statement) (p : Position) (start : Nat) : Prop :=
  (at? statements p).map (·.start) = some start

instance (statements : List Statement) (p : Position) (start : Nat) : Decidable (Points statements p start) :=
  inferInstanceAs (Decidable (_ = _))

theorem mem_of_at? {s : Statement} (found : at? statements p = some s) : s ∈ statements := by
  rcases Option.or_eq_some_iff.mp found with touched | ⟨_, first⟩
  · exact List.mem_of_mem_filter (List.mem_of_find?_eq_some touched)
  · exact List.mem_of_mem_filter (List.mem_of_mem_head? first)

/-- A change that leaves a statement at its place. -/
structure Stays (f : Statement → Statement) : Prop where
  start : ∀ s, (f s).start = s.start
  first : ∀ s, (f s).first = s.first
  last : ∀ s, (f s).last = s.last

theorem Stays.choose {g : Statement → Statement} (stays : Stays f) (stays' : Stays g) (q : Statement → Prop)
    [DecidablePred q] : Stays fun s => if q s then f s else g s where
  start s := by split; exacts [stays.start s, stays'.start s]
  first s := by split; exacts [stays.first s, stays'.first s]
  last s := by split; exacts [stays.last s, stays'.last s]

theorem stays_id : Stays fun s => s := ⟨fun _ => rfl, fun _ => rfl, fun _ => rfl⟩

theorem at?_map (stays : Stays f) (statements : List Statement) (p : Position) :
    at? (statements.map f) p = (at? statements p).map f := by
  have lines : ((·.onLine p.line) ∘ f) = fun s => s.onLine p.line := by
    funext s
    show onLine (f s) p.line = onLine s p.line
    rw [onLine, onLine, stays.first, stays.last]
  have touched : ((·.touches p) ∘ f) = fun s => s.touches p := by
    funext s
    show touches (f s) p = touches s p
    rw [touches, touches, stays.first, stays.last]
  unfold at?
  dsimp only
  rw [List.filter_map, lines, List.find?_map, touched, List.head?_map, Option.map_or]

theorem points_map (stays : Stays f) {start : Nat} :
    Points (statements.map f) p start ↔ Points statements p start := by
  have starts : (fun s : Statement => s.start) ∘ f = fun s => s.start := funext stays.start
  rw [Points, Points, at?_map stays, Option.map_map, starts]

theorem starts_map (stays : Stays f) (statements : List Statement) :
    (statements.map f).map (·.start) = statements.map (·.start) := by
  rw [List.map_map]
  exact List.map_congr_left fun s _ => stays.start s

theorem starts_parse (text : Bytes) : ((parse text).map (·.start)).Nodup := by
  rw [List.nodup_iff_pairwise_ne, List.pairwise_map]
  refine (parse_ordered text).imp_of_mem ?_
  intro s later member _ apart
  rw [parse_eq_filterMap] at member
  obtain ⟨piece, _, made⟩ := List.mem_filterMap.mp member
  have bounds := ofSegment?_bounds made
  omega

end Statement

namespace Listing

variable {l : Listing} {e : Entry} {p : Position}

theorem atPosition?_statement (l : Listing) (p : Position) :
    (l.atPosition? p).map (·.statement) = Statement.at? l.statements p := by
  unfold atPosition? Statement.at? statements
  dsimp only
  rw [Option.map_or, List.filter_map, List.find?_map, List.head?_map]
  rfl

theorem atPosition?_mem (found : l.atPosition? p = some e) : e ∈ l.entries := by
  unfold atPosition? at found
  dsimp only at found
  rcases Option.or_eq_some_iff.mp found with touched | ⟨_, first⟩
  · exact List.mem_of_mem_filter (List.mem_of_find?_eq_some touched)
  · exact List.mem_of_mem_filter (List.mem_of_mem_head? first)

theorem points_none (missing : l.atPosition? p = none) (start : Nat) : ¬ Statement.Points l.statements p start := by
  rw [Statement.Points, ← atPosition?_statement, missing]
  exact fun found => by cases found

theorem points_iff (found : l.atPosition? p = some e) {start : Nat} :
    Statement.Points l.statements p start ↔ start = e.statement.start := by
  rw [Statement.Points, ← atPosition?_statement, found]
  exact Option.some_inj.trans eq_comm

/-- Replacing the entry that a position points at changes the statement there and no other. -/
theorem statements_replace (numbered : l.Numbered) (distinct : (l.statements.map (·.start)).Nodup)
    (found : l.atPosition? p = some e) (f : Statement → Statement) :
    (l.replace e (f e.statement)).statements =
      l.statements.map fun s => if Statement.Points l.statements p s.start then f s else s := by
  obtain ⟨before, behind, split⟩ := List.append_of_mem (atPosition?_mem found)
  have entries := replace_entries numbered split (f e.statement)
  have others {items : List Entry} (apart : e.statement.start ∉ items.map (·.statement.start)) :
      (items.map (·.statement)).map (fun s => if Statement.Points l.statements p s.start then f s else s) =
        items.map (·.statement) := by
    refine map_eq_self fun s member => ?_
    obtain ⟨other, held, rfl⟩ := List.mem_map.mp member
    rw [if_neg]
    intro points
    exact apart ((points_iff found).mp points ▸ List.mem_map_of_mem held)
  rw [statements, split, List.map_map, List.map_append, List.map_cons, List.nodup_middle, List.nodup_cons,
    List.mem_append, not_or] at distinct
  have points : Statement.Points l.statements p e.statement.start := (points_iff found).mpr rfl
  have listed : l.statements = before.map (·.statement) ++ e.statement :: behind.map (·.statement) := by
    rw [statements, split, List.map_append, List.map_cons]
  refine Eq.trans ?_ (congrArg (List.map _) listed).symm
  rw [statements, entries, List.map_append, List.map_append, List.map_cons, List.map_cons, others distinct.1.1,
    others distinct.1.2, if_pos points]

end Listing
end QueryService
