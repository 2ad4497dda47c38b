import Mathlib.Data.List.Induction
import Mathlib.Data.List.Pairwise
import QueryService.Proofs.Statement.Reflection

/-!
# Versions of a list of statements

Each update of a list makes a new version of it and leaves the versions before it alone. Its target may be
taken from any of them: with an entry that the latest version no longer has nothing happens, and another one is
replaced where it stands (`updates_touch_target`).
-/

namespace QueryService

/-- Where a statement begins. -/
def Statement.origin (s : Statement) : Nat × Position := (s.start, s.first)

namespace Listing

variable {l : Listing} {e : Entry} {target : Option Entry} {text : Bytes}

/-- A change of one statement of a list. -/
inductive Update where
  | markDirty
  | markClean (valid : Bool)
  | updateCode (code : Bytes)
  deriving DecidableEq, Repr

namespace Update

def apply (u : Update) (l : Listing) (target : Option Entry) : Listing :=
  match u with
  | markDirty => l.markDirty target
  | markClean valid => l.markClean target valid
  | updateCode code => l.updateCode target code

/-- What an update makes of its target. -/
def change (u : Update) (s : Statement) : Statement :=
  match u with
  | markDirty => { s with dirty := true }
  | markClean valid => { s with dirty := false, valid }
  | updateCode code => { Statement.ofCode code s.start s.first with valid := s.valid }

theorem apply_eq_modify (u : Update) (l : Listing) (target : Option Entry) :
    u.apply l target = l.modify target u.change := by
  cases u <;> rfl

/-- What an update leaves as it is: a statement gets another text or another verdict only by the update that
is for it, and another place by none. -/
structure Keeps (u : Update) (s s' : Statement) : Prop where
  origin : s'.origin = s.origin
  text : (∀ code, u ≠ .updateCode code) →
    s'.code = s.code ∧ s'.tokens = s.tokens ∧ s'.stop = s.stop ∧ s'.last = s.last
  valid : (∀ valid, u ≠ .markClean valid) → s'.valid = s.valid

theorem keeps_change (u : Update) (s : Statement) : u.Keeps s (u.change s) where
  origin := by cases u <;> rfl
  text other := by
    cases u with
    | markDirty | markClean => exact ⟨rfl, rfl, rfl, rfl⟩
    | updateCode code => exact absurd rfl (other code)
  valid other := by
    cases u with
    | markDirty | updateCode => rfl
    | markClean valid => exact absurd rfl (other valid)

end Update

/-! ### One update -/

/-- What stands in the list with the number of a target is the target. -/
def Tells (l : Listing) (target : Option Entry) : Prop :=
  ∀ e ∈ target, ∀ other ∈ l.entries, other.identity = e.identity → other = e

theorem apply_of_absent (u : Update) (tells : l.Tells target) (absent : ∀ e ∈ target, e ∉ l.entries) :
    u.apply l target = l := by
  rw [Update.apply_eq_modify]
  cases target with
  | none => rfl
  | some e =>
    refine replace_of_absent (fun other member number => ?_) _
    exact absent e rfl (tells e rfl other member number ▸ member)

/-- An update leaves the list as it is, or it is aimed at one of its entries. -/
theorem apply_cases (u : Update) (tells : l.Tells target) :
    u.apply l target = l ∨ ∃ e before behind, target = some e ∧ l.entries = before ++ e :: behind := by
  by_cases present : ∃ e ∈ target, e ∈ l.entries
  · obtain ⟨e, aimed, member⟩ := present
    obtain ⟨before, behind, split⟩ := List.append_of_mem member
    exact Or.inr ⟨e, before, behind, aimed, split⟩
  · exact Or.inl (apply_of_absent u tells fun e aimed member => present ⟨e, aimed, member⟩)

theorem apply_entries (u : Update) (numbered : l.Numbered) {before behind : List Entry}
    (split : l.entries = before ++ e :: behind) :
    (u.apply l (some e)).entries = before ++ ⟨l.fresh, u.change e.statement⟩ :: behind := by
  rw [Update.apply_eq_modify]
  exact replace_entries numbered split _

theorem numbered_apply (u : Update) (numbered : l.Numbered) (tells : l.Tells target) :
    (u.apply l target).Numbered := by
  rcases apply_cases u tells with same | ⟨e, before, behind, rfl, split⟩
  · rwa [same]
  · rw [Update.apply_eq_modify]
    exact numbered_replace numbered split _

theorem follows_apply (u : Update) (l : Listing) (target : Option Entry) : l.Follows (u.apply l target) := by
  rw [Update.apply_eq_modify]
  cases target with
  | none => exact Follows.refl l
  | some e => exact follows_replace l e _

theorem origins_apply (u : Update) (numbered : l.Numbered) (tells : l.Tells target) :
    (u.apply l target).statements.map Statement.origin = l.statements.map Statement.origin := by
  rcases apply_cases u tells with same | ⟨e, before, behind, rfl, split⟩
  · rw [same]
  · have origin := (u.keeps_change e.statement).origin
    rw [statements, apply_entries u numbered split, statements, split]
    simp [origin]

/-! ### Updates one after the other -/

/-- Entries with one number are one entry. -/
def Agree (l l' : Listing) : Prop := ∀ e ∈ l.entries, ∀ e' ∈ l'.entries, e.identity = e'.identity → e = e'

instance : Std.Symm Agree where
  symm _ _ agree e listed e' listed' number := (agree e' listed' e listed number.symm).symm

/-- A list and the versions of it before, the newest of these first. -/
structure History where
  latest : Listing
  older : List Listing := []

/-- An update and its target: none, or the entry so many places into the version so many versions ago. -/
structure Step where
  update : Update
  target : Option (Nat × Nat)

namespace History

variable {h : History}

def versions (h : History) : List Listing := h.latest :: h.older

/-- The entry that a step is aimed at. Where there is no such entry, it is aimed at nothing. -/
def aim? (h : History) (step : Step) : Option Entry :=
  step.target.bind fun (ago, index) => h.versions[ago]?.bind (·.entries[index]?)

def step (h : History) (step : Step) : History :=
  { latest := step.update.apply h.latest (h.aim? step), older := h.versions }

def run (h : History) (steps : List Step) : History := steps.foldl step h

theorem run_concat (h : History) (steps : List Step) (last : Step) :
    h.run (steps ++ [last]) = (h.run steps).step last := List.foldl_concat ..

theorem exists_version {step : Step} (aimed : e ∈ h.aim? step) : ∃ v ∈ h.versions, e ∈ v.entries := by
  obtain ⟨place, _, version⟩ := Option.bind_eq_some_iff.mp aimed
  obtain ⟨v, found, listed⟩ := Option.bind_eq_some_iff.mp version
  exact ⟨v, List.mem_of_getElem? found, List.mem_of_getElem? listed⟩

theorem versions_suffix (h : History) (steps : List Step) : h.versions <:+ (h.run steps).versions := by
  induction steps using List.reverseRecOn with
  | nil => exact List.suffix_refl _
  | append_singleton steps last ih =>
    rw [run_concat]
    exact ih.trans (List.suffix_cons _ _)

/-- The versions give no number to two entries, and their statements begin where those of the text do. -/
structure Sound (text : Bytes) (h : History) : Prop where
  numbered : ∀ v ∈ h.versions, v.Numbered
  ordered : h.versions.Pairwise fun later earlier => earlier.Follows later
  origins : ∀ v ∈ h.versions, v.statements.map Statement.origin = (Statement.parse text).map Statement.origin

theorem sound_parse (fresh : Nat) (text : Bytes) : Sound text { latest := parse fresh text } where
  numbered v member := by
    obtain rfl := List.mem_singleton.mp member
    exact numbered_parse fresh text
  ordered := List.pairwise_singleton _ _
  origins v member := by
    obtain rfl := List.mem_singleton.mp member
    rw [statements_parse]

namespace Sound

theorem agree (sound : h.Sound text) {v v' : Listing} (made : v ∈ h.versions) (made' : v' ∈ h.versions) :
    Agree v v' := by
  have reflexive : ∀ v ∈ h.versions, Agree v v := fun v made e listed e' listed' number =>
    List.inj_on_of_nodup_map (sound.numbered v made).distinct listed listed' number
  -- Of two versions one follows the other, and then has what both number alike from it.
  have pairs : h.versions.Pairwise Agree := by
    refine sound.ordered.imp_of_mem fun {later earlier} _ made follows e listed e' listed' number => ?_
    exact follows.same (sound.numbered earlier made) listed' listed number
  exact pairs.forall_of_forall reflexive made made'

theorem tells (sound : h.Sound text) (step : Step) : h.latest.Tells (h.aim? step) := by
  intro e aimed other listed number
  obtain ⟨v, made, listed'⟩ := exists_version aimed
  exact sound.agree List.mem_cons_self made other listed e listed' number

theorem step (sound : h.Sound text) (step : Step) : (h.step step).Sound text := by
  have numbered := sound.numbered h.latest List.mem_cons_self
  have tells := sound.tells step
  refine ⟨?_, ?_, ?_⟩
  · exact List.forall_mem_cons.mpr ⟨numbered_apply _ numbered tells, sound.numbered⟩
  · have next := follows_apply step.update h.latest (h.aim? step)
    refine List.pairwise_cons.mpr ⟨?_, sound.ordered⟩
    refine List.forall_mem_cons.mpr ⟨next, fun v older => ?_⟩
    exact ((List.pairwise_cons.mp sound.ordered).1 v older).trans next
  · refine List.forall_mem_cons.mpr ⟨?_, sound.origins⟩
    exact (origins_apply step.update numbered tells).trans (sound.origins h.latest List.mem_cons_self)

theorem run (sound : h.Sound text) (steps : List Step) : (h.run steps).Sound text := by
  induction steps using List.reverseRecOn with
  | nil => exact sound
  | append_singleton steps last ih =>
    rw [run_concat]
    exact ih.step last

theorem fresh_unused (sound : h.Sound text) :
    ∀ v ∈ h.versions, ∀ e ∈ v.entries, e.identity ≠ h.latest.fresh := by
  intro v made e listed
  have used := (sound.numbered v made).used e listed
  refine Nat.ne_of_lt (Nat.lt_of_lt_of_le used ?_)
  rcases List.mem_cons.mp made with rfl | older
  · exact Nat.le_refl _
  · exact ((List.pairwise_cons.mp sound.ordered).1 v older).fresh

end Sound
end History

/-- However a list is updated and whatever versions the targets are taken from: all versions have as many entries
that begin in the same places, and an entry is the same in each. One more update adds a version. If its target is
in the latest one, another entry stands there in the new one, which no version had, with all that the update is not
for; the other entries stay. If not, nothing changes. -/
theorem updates_touch_target (fresh : Nat) (text : Bytes) (steps : List Step) :
    let h := History.run { latest := parse fresh text } steps
    (∀ v ∈ h.versions, v.entries.length = (Statement.parse text).length ∧ (v.entries.map (·.identity)).Nodup ∧
      v.statements.map Statement.origin = (Statement.parse text).map Statement.origin) ∧
    (∀ v ∈ h.versions, ∀ v' ∈ h.versions, v.Agree v') ∧
    (∀ more, h.versions <:+ (h.run more).versions) ∧
    ∀ step, (h.step step).versions = (h.step step).latest :: h.versions ∧
      ((∀ e ∈ h.aim? step, e ∉ h.latest.entries) → (h.step step).latest.entries = h.latest.entries) ∧
      ∀ e ∈ h.aim? step, ∀ before behind, h.latest.entries = before ++ e :: behind →
        ∃ new, (h.step step).latest.entries = before ++ new :: behind ∧
          step.update.Keeps e.statement new.statement ∧
          ∀ v ∈ h.versions, ∀ other ∈ v.entries, other.identity ≠ new.identity := by
  intro h
  have sound : h.Sound text := (History.sound_parse fresh text).run steps
  refine ⟨?_, fun v made v' made' => sound.agree made made', h.versions_suffix, ?_⟩
  · intro v made
    have origins := sound.origins v made
    refine ⟨?_, (sound.numbered v made).distinct, origins⟩
    simpa [statements] using congrArg List.length origins
  · intro step
    refine ⟨rfl, ?_, ?_⟩
    · intro absent
      exact congrArg entries (apply_of_absent step.update (sound.tells step) absent)
    · intro e aimed before behind split
      refine ⟨⟨h.latest.fresh, step.update.change e.statement⟩, ?_, step.update.keeps_change e.statement,
        sound.fresh_unused⟩
      have aim : h.aim? step = some e := aimed
      rw [History.step, aim]
      exact apply_entries step.update (sound.numbered h.latest List.mem_cons_self) split

/-- The two statements look alike. The second update is aimed at an entry that the first one has replaced. -/
example :
    let steps : List Step :=
      [⟨.markClean true, some (0, 0)⟩, ⟨.markDirty, some (1, 0)⟩, ⟨.updateCode (ascii "b"), some (0, 1)⟩]
    (History.run { latest := parse 0 (ascii "a;a;") } steps).versions.map (·.entries.map (·.identity)) =
      [[2, 3], [2, 1], [2, 1], [0, 1]] := by
  decide +kernel

end Listing
end QueryService
