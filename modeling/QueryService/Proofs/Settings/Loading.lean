import Mathlib.Data.List.Basic
import Mathlib.Data.List.Induction
import Mathlib.Data.List.TakeWhile
import Mathlib.Logic.Relation
import QueryService.Proofs.Settings.Assignment
import QueryService.Proofs.Text.Unbroken

/-!
# Loading, line by line

A line opens a section, gives a key a value, or says nothing (`readLine_of_heading`, `readLine_of_pair`,
`readLine_of_neither`). So each setting ends with the value of the last line that gives it one, or else with the value
it had (`get_foldl`). What follows is that a text may be loaded twice, and that lines which give nothing can be
taken out.
-/

namespace QueryService

namespace Settings

variable {within opened : Section} {s : Settings} {line key value : Bytes} {lines : List Bytes} {x : Setting}

/-! ### One line -/

/-- The section that a header line opens. -/
def heading? (line : Bytes) : Option Section :=
  (header? (trim line)).map fun name => Section.ofName (Bytes.toLower (trim name))

/-- The key before the first equals sign of a line and the value behind it. -/
structure Pair (line key value : Bytes) : Prop where
  uncommented : isComment (trim line) = false
  unheaded : heading? line = none
  split : ∃ before after, trim line = before ++ Byte.equals :: after ∧ Byte.equals ∉ before ∧
    key = Bytes.toLower (trim before) ∧ value = trim after

theorem takeWhile_of_split {before : Bytes} (first : Byte.equals ∉ before) (after : Bytes) :
    (before ++ Byte.equals :: after).takeWhile (· != Byte.equals) = before := by
  have passed : ∀ c ∈ before, (c != Byte.equals) = true := fun c member =>
    bne_iff_ne.mpr (ne_of_mem_of_not_mem member first)
  rw [List.takeWhile_append_of_pos passed, List.takeWhile_cons, if_neg (by decide), List.append_nil]

theorem Pair.unique {key' value' : Bytes} (pair : Pair line key value) (other : Pair line key' value') :
    key = key' ∧ value = value' := by
  obtain ⟨before, after, whole, first, rfl, rfl⟩ := pair.split
  obtain ⟨before', after', whole', first', rfl, rfl⟩ := other.split
  have same : before = before' := by
    rw [← takeWhile_of_split first after, ← whole, whole', takeWhile_of_split first']
  subst same
  rw [whole] at whole'
  have rest := List.append_cancel_left whole'
  rw [List.cons.inj rest |>.2]
  exact ⟨rfl, rfl⟩

theorem header?_trim_of_heading? (unheaded : heading? line = none) : header? (trim line) = none :=
  Option.map_eq_none_iff.mp unheaded

/-- Only what begins with a bracket is a header. -/
theorem head?_of_header? {name : Bytes} (header : header? line = some name) :
    line.head? = some Byte.bracketOpen := by
  unfold header? at header
  split at header
  · next brackets => exact brackets.1
  · cases header

theorem uncommented_of_heading (heading : heading? line = some opened) : isComment (trim line) = false := by
  obtain ⟨name, header, -⟩ := Option.map_eq_some_iff.mp heading
  rw [isComment, head?_of_header? header]
  decide

theorem readLine_of_heading (heading : heading? line = some opened) : readLine (within, s) line = (opened, s) := by
  obtain ⟨name, header, rfl⟩ := Option.map_eq_some_iff.mp heading
  have head := head?_of_header? header
  have nonempty : (trim line).isEmpty = false := by
    cases written : trim line with
    | nil => rw [written] at head; cases head
    | cons c rest => rfl
  simp only [readLine, nonempty, uncommented_of_heading heading, header, Bool.or_self, Bool.false_eq_true, if_false]

theorem readLine_of_pair (pair : Pair line key value) :
    readLine (within, s) line = (within, s.assign within key value) := by
  obtain ⟨before, after, whole, first, rfl, rfl⟩ := pair.split
  have header := header?_trim_of_heading? pair.unheaded
  have uncommented := pair.uncommented
  rw [whole] at header uncommented
  have nonempty : (before ++ Byte.equals :: after).isEmpty = false := by
    rw [List.isEmpty_eq_false_iff]
    exact List.append_ne_nil_of_right_ne_nil before (List.cons_ne_nil Byte.equals after)
  have shorter : before.length ≠ (before ++ Byte.equals :: after).length := by
    rw [List.length_append, List.length_cons]
    exact Nat.ne_of_lt (Nat.lt_add_of_pos_right (Nat.succ_pos _))
  have rest : (before ++ Byte.equals :: after).drop (before.length + 1) = after := by
    rw [List.drop_length_add_append, List.drop_one, List.tail_cons]
  simp only [readLine, whole, nonempty, uncommented, header, Bool.or_self, Bool.false_eq_true, if_false,
    takeWhile_of_split first, shorter, rest]

theorem pair_of_mem (uncommented : isComment (trim line) = false) (unheaded : heading? line = none)
    (member : Byte.equals ∈ trim line) : ∃ key value, Pair line key value := by
  obtain ⟨before, after, whole, first⟩ := List.eq_append_cons_of_mem member
  exact ⟨_, _, uncommented, unheaded, before, after, whole, first, rfl, rfl⟩

theorem readLine_of_neither (unheaded : heading? line = none) (unpaired : ∀ key value, ¬ Pair line key value) :
    readLine (within, s) line = (within, s) := by
  have header := header?_trim_of_heading? unheaded
  cases uncommented : isComment (trim line) with
  | true => simp only [readLine, uncommented, Bool.or_true, if_true]
  | false =>
    have absent : Byte.equals ∉ trim line := by
      intro member
      obtain ⟨key, value, pair⟩ := pair_of_mem uncommented unheaded member
      exact unpaired key value pair
    have whole : (trim line).takeWhile (· != Byte.equals) = trim line :=
      List.takeWhile_eq_self_iff.mpr fun c member => bne_iff_ne.mpr (ne_of_mem_of_not_mem member absent)
    simp only [readLine, header, whole, if_true, ite_self]

theorem readLine_fst (within : Section) (s : Settings) (line : Bytes) :
    (readLine (within, s) line).1 = (heading? line).getD within := by
  cases heading : heading? line with
  | some opened => rw [readLine_of_heading heading, Option.getD_some]
  | none =>
    by_cases pair : ∃ key value, Pair line key value
    · obtain ⟨key, value, pair⟩ := pair
      rw [readLine_of_pair pair, Option.getD_none]
    · rw [readLine_of_neither heading fun key value read => pair ⟨key, value, read⟩, Option.getD_none]

/-- A line gives a setting a value in its section, with its key, if the value can be read. -/
def Gives (within : Section) (line : Bytes) (x : Setting) (v : x.Value) : Prop :=
  x.home = within ∧ ∃ value, Pair line x.key value ∧ x.read? value = some v

/-- What a line makes of one setting does not depend on the others. -/
theorem get_readLine (within : Section) (line : Bytes) (x : Setting) :
    (∃ v, Gives within line x v ∧ ∀ s, x.get (readLine (within, s) line).2 = v) ∨
      (∀ v, ¬ Gives within line x v) ∧ ∀ s, x.get (readLine (within, s) line).2 = x.get s := by
  by_cases pair : ∃ key value, Pair line key value
  · obtain ⟨key, value, pair⟩ := pair
    simp only [readLine_of_pair pair, get_assign]
    by_cases meant : x.home = within ∧ key = x.key
    · obtain ⟨home, rfl⟩ := meant
      cases read : x.read? value with
      | some v => exact .inl ⟨v, ⟨home, value, pair, read⟩, fun s => if_pos ⟨home, rfl⟩⟩
      | none =>
        refine .inr ⟨?_, fun s => if_pos ⟨home, rfl⟩⟩
        rintro v ⟨-, other, again, given⟩
        rw [← (pair.unique again).2, read] at given
        cases given
    · refine .inr ⟨?_, fun s => if_neg meant⟩
      rintro v ⟨home, other, again, -⟩
      exact meant ⟨home, (pair.unique again).1⟩
  · have unpaired : ∀ key value, ¬ Pair line key value := fun key value read => pair ⟨key, value, read⟩
    refine .inr ⟨fun v ⟨_, value, read, _⟩ => unpaired x.key value read, fun s => ?_⟩
    cases heading : heading? line with
    | some opened => rw [readLine_of_heading heading]
    | none => rw [readLine_of_neither heading unpaired]

/-! ### All lines -/

/-- The section of the last header; before the first there is none. -/
def sectionAfter (lines : List Bytes) : Section := (lines.filterMap heading?).getLast?.getD .other

theorem sectionAfter_concat (lines : List Bytes) (line : Bytes) :
    sectionAfter (lines ++ [line]) = (heading? line).getD (sectionAfter lines) := by
  unfold sectionAfter
  rw [List.filterMap_append]
  cases heading : heading? line with
  | none => rw [List.filterMap_cons_none heading, List.filterMap_nil, List.append_nil, Option.getD_none]
  | some opened =>
    rw [List.filterMap_cons_some heading, List.filterMap_nil, List.getLast?_concat, Option.getD_some,
      Option.getD_some]

theorem foldl_readLine_fst (lines : List Bytes) (s : Settings) :
    (lines.foldl readLine (.other, s)).1 = sectionAfter lines := by
  induction lines using List.reverseRecOn with
  | nil => rfl
  | append_singleton lines line ih => rw [List.foldl_concat, readLine_fst, ih, sectionAfter_concat]

/-- The line at an index gives a value, under the header in force there. -/
def GivesAt (lines : List Bytes) (k : Nat) (x : Setting) (v : x.Value) : Prop :=
  ∃ line, lines[k]? = some line ∧ Gives (sectionAfter (lines.take k)) line x v

/-- The value that the last line to give one gives. -/
def LastGiven (lines : List Bytes) (x : Setting) (v : x.Value) : Prop :=
  ∃ k, GivesAt lines k x v ∧ ∀ later w, k < later → ¬ GivesAt lines later x w

theorem givesAt_concat {k : Nat} {v : x.Value} :
    GivesAt (lines ++ [line]) k x v ↔
      GivesAt lines k x v ∨ k = lines.length ∧ Gives (sectionAfter lines) line x v := by
  unfold GivesAt
  rcases Nat.lt_trichotomy k lines.length with before | rfl | behind
  · rw [List.getElem?_append_left before, List.take_append_of_le_length (Nat.le_of_lt before)]
    exact ⟨.inl, fun either => either.resolve_right fun last => Nat.ne_of_lt before last.1⟩
  · rw [List.getElem?_concat_length, List.take_left, List.getElem?_eq_none (Nat.le_refl _)]
    constructor
    · rintro ⟨_, found, gives⟩
      obtain rfl := Option.some.inj found
      exact .inr ⟨rfl, gives⟩
    · rintro (⟨_, absent, _⟩ | ⟨-, gives⟩)
      · cases absent
      · exact ⟨line, rfl, gives⟩
  · have beyond : (lines ++ [line]).length ≤ k := by
      rw [List.length_append, List.length_singleton]
      exact behind
    rw [List.getElem?_eq_none beyond, List.getElem?_eq_none (Nat.le_of_lt behind)]
    constructor
    · rintro ⟨_, absent, _⟩
      cases absent
    · rintro (⟨_, absent, _⟩ | ⟨rfl, _⟩)
      · cases absent
      · exact absurd behind (Nat.lt_irrefl _)

/-- Each setting ends with the last value it is given, or with what it was. -/
theorem get_foldl (lines : List Bytes) (x : Setting) :
    (∃ v, LastGiven lines x v ∧ ∀ s, x.get (lines.foldl readLine (.other, s)).2 = v) ∨
      (∀ k v, ¬ GivesAt lines k x v) ∧ ∀ s, x.get (lines.foldl readLine (.other, s)).2 = x.get s := by
  induction lines using List.reverseRecOn with
  | nil =>
    refine .inr ⟨?_, fun s => rfl⟩
    rintro k v ⟨line, absent, -⟩
    cases absent
  | append_singleton lines line ih =>
    have step (s : Settings) : (lines ++ [line]).foldl readLine (.other, s) =
        readLine (sectionAfter lines, (lines.foldl readLine (.other, s)).2) line := by
      rw [List.foldl_concat, ← foldl_readLine_fst lines s]
    simp only [step]
    rcases get_readLine (sectionAfter lines) line x with ⟨v, gives, read⟩ | ⟨silent, kept⟩
    · refine .inl ⟨v, ⟨lines.length, givesAt_concat.mpr (.inr ⟨rfl, gives⟩), ?_⟩, fun s => read _⟩
      rintro later w behind ⟨next, found, -⟩
      have bound := (List.getElem?_eq_some_iff.mp found).1
      rw [List.length_append, List.length_singleton] at bound
      exact absurd behind (Nat.not_lt.mpr (Nat.le_of_lt_succ bound))
    · have same {k : Nat} {w : x.Value} : GivesAt (lines ++ [line]) k x w ↔ GivesAt lines k x w := by
        rw [givesAt_concat]
        exact or_iff_left fun last => silent w last.2
      simp only [LastGiven, same, kept]
      exact ih

/-! ### Lines that give nothing -/

/-- A line that says nothing in its section. -/
inductive Idle (within : Section) (line : Bytes) : Prop
  | blank (margin : ∀ c ∈ line, isMargin c = true)
  | comment (marked : isComment (trim line) = true)
  | unpaired (unheaded : heading? line = none) (absent : Byte.equals ∉ trim line)
  | unknown {key value : Bytes} (pair : Pair line key value) (strange : ∀ x : Setting, x.home = within → x.key ≠ key)
  | unreadable {x : Setting} {value : Bytes} (home : x.home = within) (pair : Pair line x.key value)
      (unread : x.read? value = none)

theorem trim_of_blank (margin : ∀ c ∈ line, isMargin c = true) : trim line = [] := by
  rw [trim, Bytes.trim, List.dropWhile_eq_nil_iff.mpr margin]
  rfl

theorem Idle.unheaded (idle : Idle within line) : heading? line = none := by
  cases idle with
  | blank margin => rw [heading?, trim_of_blank margin]; rfl
  | comment marked =>
    cases heading : heading? line with
    | none => rfl
    | some opened => rw [uncommented_of_heading heading] at marked; cases marked
  | unpaired unheaded absent => exact unheaded
  | unknown pair strange => exact pair.unheaded
  | unreadable home pair unread => exact pair.unheaded

theorem Idle.not_gives (idle : Idle within line) (x : Setting) (v : x.Value) : ¬ Gives within line x v := by
  rintro ⟨home, value, pair, read⟩
  obtain ⟨before, after, whole, -⟩ := pair.split
  cases idle with
  | blank margin =>
    rw [trim_of_blank margin] at whole
    exact List.append_ne_nil_of_right_ne_nil before (List.cons_ne_nil _ after) whole.symm
  | comment marked => rw [pair.uncommented] at marked; cases marked
  | unpaired unheaded absent =>
    rw [whole] at absent
    exact absent (List.mem_append_right before List.mem_cons_self)
  | unknown other strange => exact strange x home (pair.unique other).1
  | unreadable there other unread =>
    obtain ⟨key, rfl⟩ := pair.unique other
    obtain rfl := Setting.ext_key (home.trans there.symm) key
    rw [unread] at read
    cases read

theorem readLine_of_silent (unheaded : heading? line = none) (silent : ∀ x v, ¬ Gives within line x v)
    (s : Settings) : readLine (within, s) line = (within, s) := by
  refine Prod.ext ?_ (ext_get fun x => ?_)
  · rw [readLine_fst, unheaded, Option.getD_none]
  · rcases get_readLine within line x with ⟨v, gives, -⟩ | ⟨-, kept⟩
    · exact absurd gives (silent x v)
    · exact kept s

theorem foldl_readLine_of_other (inside : ∀ line ∈ lines, heading? line = none) (s : Settings) :
    lines.foldl readLine (.other, s) = (.other, s) := by
  induction lines with
  | nil => rfl
  | cons line lines ih =>
    have silent (x : Setting) (v : x.Value) : ¬ Gives .other line x v := fun gives => x.home_ne_other gives.1
    rw [List.forall_mem_cons] at inside
    rw [List.foldl_cons, readLine_of_silent inside.1 silent, ih inside.2]

/-- Lines that may be taken out of a text: one that says nothing, or an unknown section as a whole. -/
inductive Removal : List Bytes → List Bytes → Prop
  | idle (before after : List Bytes) {line : Bytes} (idle : Idle (sectionAfter before) line) :
      Removal (before ++ line :: after) (before ++ after)
  | unknown (before body after : List Bytes) {header : Bytes} (opens : heading? header = some .other)
      (inside : ∀ line ∈ body, heading? line = none)
      (ends : ∀ next, after.head? = some next → (heading? next).isSome) :
      Removal (before ++ header :: body ++ after) (before ++ after)

theorem Removal.foldl {lines fewer : List Bytes} (removal : Removal lines fewer) (s : Settings) :
    (fewer.foldl readLine (.other, s)).2 = (lines.foldl readLine (.other, s)).2 := by
  cases removal with
  | idle before after idle =>
    rw [← foldl_readLine_fst before s] at idle
    rw [List.foldl_append, List.foldl_append, List.foldl_cons, readLine_of_silent idle.unheaded idle.not_gives]
  | unknown before body after opens inside ends =>
    rw [List.foldl_append, List.append_assoc, List.foldl_append, List.cons_append, List.foldl_cons,
      List.foldl_append]
    obtain ⟨within, t⟩ := before.foldl readLine (.other, s)
    rw [readLine_of_heading opens, foldl_readLine_of_other inside]
    cases after with
    | nil => rfl
    | cons next after =>
      obtain ⟨opened, heading⟩ := Option.isSome_iff_exists.mp (ends next rfl)
      rw [List.foldl_cons, List.foldl_cons, readLine_of_heading heading, readLine_of_heading heading]

theorem Removal.sublist {lines fewer : List Bytes} (removal : Removal lines fewer) : fewer.Sublist lines := by
  cases removal with
  | idle before after idle => exact (List.sublist_cons_self _ after).append_left before
  | unknown before body after opens inside ends =>
    exact (List.sublist_append_left before (_ :: body)).append_right after

theorem foldl_of_removals {fewer : List Bytes} (removals : Relation.ReflTransGen Removal lines fewer) :
    fewer.Sublist lines ∧ ∀ s, (fewer.foldl readLine (.other, s)).2 = (lines.foldl readLine (.other, s)).2 := by
  induction removals with
  | refl => exact ⟨List.Sublist.refl lines, fun s => rfl⟩
  | tail _ removal ih => exact ⟨removal.sublist.trans ih.1, fun s => (removal.foldl s).trans (ih.2 s)⟩

/-- Loading gives each setting, apart from all others, the value of the last line that gives it one in its section, or
leaves it as it was. So a text says the same a second time, and lines that say nothing can be taken out of it, as can
unknown sections. -/
theorem load_last_wins (text : Bytes) :
    (∀ (x : Setting) (s s' : Settings),
      (∃ v, LastGiven (Bytes.feedLines text) x v ∧ x.get (s.load text) = v ∧ x.get (s'.load text) = v) ∨
        (∀ k v, ¬ GivesAt (Bytes.feedLines text) k x v) ∧
          x.get (s.load text) = x.get s ∧ x.get (s'.load text) = x.get s') ∧
      (∀ s : Settings, (s.load text).load text = s.load text) ∧
      ∀ fewer, Relation.ReflTransGen Removal (Bytes.feedLines text) fewer →
        (∃ text', Bytes.feedLines text' = fewer) ∧
          ∀ text', Bytes.feedLines text' = fewer → ∀ s : Settings, s.load text' = s.load text := by
  refine ⟨fun x s s' => ?_, fun s => ?_, fun fewer removals => ?_⟩
  · rcases get_foldl (Bytes.feedLines text) x with ⟨v, last, read⟩ | ⟨silent, kept⟩
    · exact .inl ⟨v, last, read s, read s'⟩
    · exact .inr ⟨silent, kept s, kept s'⟩
  · refine ext_get fun x => ?_
    rcases get_foldl (Bytes.feedLines text) x with ⟨v, -, read⟩ | ⟨-, kept⟩
    · exact (read (s.load text)).trans (read s).symm
    · exact kept (s.load text)
  · obtain ⟨sublist, same⟩ := foldl_of_removals removals
    have fed : ∀ line ∈ fewer, Byte.lf ∉ line := fun line member => not_mem_of_feedLines (sublist.subset member)
    refine ⟨⟨followed fewer, feedLines_followed fed⟩, fun text' written s => ?_⟩
    rw [load, load, written, same]

theorem idle_lines_removed :
    let text := ascii "[log]\nlevel=debug\nlevel=loud\n[x]\n# quiet\nlevel=off\n"
    let rest := ascii "[log]\nlevel=debug\n"
    Relation.ReflTransGen Removal (Bytes.feedLines text) (Bytes.feedLines rest) ∧
      ∀ s : Settings, s.load rest = s.load text := by
  intro text rest
  have loud : Pair (ascii "level=loud") (ascii "level") (ascii "loud") :=
    ⟨rfl, rfl, ascii "level", ascii "loud", rfl, by decide, rfl, rfl⟩
  have unread : Removal (Bytes.feedLines text)
      [ascii "[log]", ascii "level=debug", ascii "[x]", ascii "# quiet", ascii "level=off"] :=
    .idle [ascii "[log]", ascii "level=debug"] _ (.unreadable (x := .level) rfl loud rfl)
  have unknown : Removal [ascii "[log]", ascii "level=debug", ascii "[x]", ascii "# quiet", ascii "level=off"]
      (Bytes.feedLines rest) :=
    .unknown [ascii "[log]", ascii "level=debug"] [ascii "# quiet", ascii "level=off"] [] rfl (by decide)
      fun _ found => nomatch found
  have removals := (Relation.ReflTransGen.single unread).tail unknown
  obtain ⟨-, -, removed⟩ := load_last_wins text
  exact ⟨removals, (removed _ removals).2 rest rfl⟩

end Settings
end QueryService
