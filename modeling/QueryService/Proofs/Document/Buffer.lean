import QueryService.Proofs.Text.Joining
import QueryService.Text.Document

/-!
# Documents as flat texts

A document keeps its lines apart. Read as one text, an insertion pastes and a deletion cuts at one
place (`edits_refine_text`). Where a position lies beyond the end of its line or of the document, the
text is first made to reach it (`extendTo`).
-/

namespace QueryService

variable {line front back : Bytes} {lines above below pieces : List Bytes}

/-! ### Room for a position -/

/-- The text with as many more lines at its end, and as many spaces at the end of the line, as it takes
for the position `line`, `column` to exist. Lines end in line feeds here. -/
def extendTo : Nat → Nat → Bytes → Bytes
  | line, column, [] => List.replicate line Byte.lf ++ List.replicate column Byte.space
  | 0, column, c :: rest =>
    if c = Byte.lf then List.replicate column Byte.space ++ c :: rest
    else c :: extendTo 0 (column - 1) rest
  | line + 1, column, c :: rest =>
    c :: extendTo (if c = Byte.lf then line else line + 1) column rest

theorem extendTo_line (unbroken : Unbroken line) (column : Nat) (below : List Bytes) :
    extendTo 0 column (line ++ preceded below) =
      line ++ List.replicate (column - line.length) Byte.space ++ preceded below := by
  induction line generalizing column with
  | nil =>
    cases below with
    | nil => simp [extendTo]
    | cons next below => simp [extendTo, preceded]
  | cons c line ih =>
    have inner : c ≠ Byte.lf := by
      rintro rfl
      exact absurd (unbroken Byte.lf List.mem_cons_self) (by decide)
    have later := ih (fun d member => unbroken d (List.mem_cons_of_mem c member)) (column - 1)
    have spaces : column - 1 - line.length = column - (line.length + 1) := by omega
    rw [List.cons_append, extendTo, if_neg inner, later, spaces]
    rfl

theorem extendTo_past (unbroken : Unbroken line) (later column : Nat) (rest : Bytes) :
    extendTo (later + 1) column (line ++ rest) = line ++ extendTo (later + 1) column rest := by
  induction line with
  | nil => rfl
  | cons c line ih =>
    have inner : c ≠ Byte.lf := by
      rintro rfl
      exact absurd (unbroken Byte.lf List.mem_cons_self) (by decide)
    have behind := ih fun d member => unbroken d (List.mem_cons_of_mem c member)
    rw [List.cons_append, extendTo, if_neg inner, behind]
    rfl

/-- The lines and as many empty ones as it takes for a line of this number to exist. -/
def stretch (lines : List Bytes) (number : Nat) : List Bytes :=
  lines ++ List.replicate (number + 1 - lines.length) []

/-- A line with as many spaces more as it takes for a column to exist. -/
def pad (line : Bytes) (column : Nat) : Bytes := line ++ List.replicate (column - line.length) Byte.space

theorem unbroken_stretch (unbroken : ∀ line ∈ lines, Unbroken line) (number : Nat) :
    ∀ line ∈ stretch lines number, Unbroken line := by
  intro line member
  rcases List.mem_append.mp member with listed | added
  · exact unbroken line listed
  · rw [List.eq_of_mem_replicate added]
    exact unbroken_nil

theorem unbroken_pad (unbroken : Unbroken line) (column : Nat) : Unbroken (pad line column) := by
  intro c member
  rcases List.mem_append.mp member with held | added
  · exact unbroken c held
  · rw [List.eq_of_mem_replicate added]
    rfl

theorem followed_replicate (number : Nat) :
    followed (List.replicate number []) = List.replicate number Byte.lf := by
  induction number with
  | zero => rfl
  | succ number ih => rw [List.replicate_succ, followed_cons, ih]; rfl

theorem stretch_within {number : Nat} (within : number < lines.length) : stretch lines number = lines := by
  rw [stretch, Nat.sub_eq_zero_of_le within, List.replicate_zero, List.append_nil]

theorem stretch_beyond (lines : List Bytes) (more : Nat) :
    stretch lines (lines.length + more) = lines ++ List.replicate more [] ++ [[]] := by
  rw [stretch, Nat.add_assoc, Nat.add_sub_cancel_left, List.replicate_succ', List.append_assoc]

theorem extendTo_followed (unbroken : ∀ line ∈ above, Unbroken line) (number column : Nat) (rest : Bytes) :
    extendTo (above.length + number) column (followed above ++ rest) =
      followed above ++ extendTo number column rest := by
  induction above with
  | nil => simp
  | cons line above ih =>
    have first := unbroken line List.mem_cons_self
    have later := ih fun l member => unbroken l (List.mem_cons_of_mem line member)
    rw [List.length_cons, Nat.add_right_comm, followed_cons, List.append_assoc, extendTo_past first,
      List.cons_append, extendTo, if_pos rfl, later, List.append_assoc, List.cons_append]

theorem extendTo_beyond (inhabited : lines ≠ []) (unbroken : ∀ line ∈ lines, Unbroken line) (more column : Nat) :
    extendTo (lines.length + more) column (joinLines lines) =
      followed lines ++ (List.replicate more Byte.lf ++ List.replicate column Byte.space) := by
  obtain ⟨above, last, rfl⟩ := (List.eq_nil_or_concat lines).resolve_left inhabited
  rw [List.concat_eq_append] at unbroken ⊢
  rw [List.forall_mem_append, List.forall_mem_singleton] at unbroken
  have number : (above ++ [last]).length + more = above.length + (more + 1) := by
    rw [List.length_append, List.length_singleton]
    omega
  have behind := extendTo_past unbroken.2 more column []
  rw [List.append_nil] at behind
  rw [number, joinLines_focus, preceded_nil, List.append_nil, extendTo_followed unbroken.1, behind, extendTo,
    List.replicate_succ, followed_append, followed_cons, followed_nil]
  simp

/-- The text made to reach a position is that of the lines with room for it. -/
theorem extendTo_joinLines (inhabited : lines ≠ []) (unbroken : ∀ line ∈ lines, Unbroken line) (column : Nat)
    (split : stretch lines above.length = above ++ line :: below) :
    extendTo above.length column (joinLines lines) = followed above ++ (pad line column ++ preceded below) := by
  rcases Nat.lt_or_ge above.length lines.length with within | beyond
  · rw [stretch_within within] at split
    rw [split, List.forall_mem_append, List.forall_mem_cons] at unbroken
    have passed := extendTo_followed unbroken.1 0 column (line ++ preceded below)
    rw [Nat.add_zero] at passed
    rw [split, joinLines_focus, passed, extendTo_line unbroken.2.1, pad]
  · obtain ⟨more, number⟩ := Nat.exists_eq_add_of_le beyond
    rw [number, stretch_beyond] at split
    obtain ⟨rows, rest⟩ := List.append_inj split (by simp [number])
    obtain ⟨rfl, rfl⟩ := List.cons.inj rest
    rw [number, extendTo_beyond inhabited unbroken, ← rows, followed_append, followed_replicate, preceded_nil, pad]
    simp

/-! ### Pieces pasted into a line -/

/-- The last piece is pasted behind all the others, which end in breaks. -/
theorem exists_enclose (front back : Bytes) (inhabited : pieces ≠ []) :
    ∃ before last, Document.enclose front back pieces = before ++ [last ++ back] ∧
      followed before ++ last = front ++ joinLines pieces ∧ before.length = pieces.length - 1 ∧
      last.length = (if pieces.length = 1 then front.length else 0) + (pieces.getLast?.getD []).length := by
  induction pieces generalizing front with
  | nil => contradiction
  | cons piece more ih =>
    cases more with
    | nil => exact ⟨[], front ++ piece, rfl, by simp [joinLines, List.intercalate], rfl, by simp⟩
    | cons next more =>
      obtain ⟨before, last, lines, text, number, size⟩ := ih [] (List.cons_ne_nil next more)
      refine ⟨(front ++ piece) :: before, last, ?_, ?_, ?_, ?_⟩
      · rw [Document.enclose, lines, List.cons_append]
      · rw [followed_cons, List.append_assoc, List.cons_append, text, joinLines_cons]
        simp
      · simp [number]
      · simp [size]

theorem unbroken_enclose (before : Unbroken front) (behind : Unbroken back) (unbroken : ∀ piece ∈ pieces, Unbroken piece) :
    ∀ line ∈ Document.enclose front back pieces, Unbroken line := by
  fun_induction Document.enclose front back pieces with
  | case1 front =>
    rw [List.forall_mem_singleton]
    exact List.forall_mem_append.mpr ⟨before, behind⟩
  | case2 front piece =>
    rw [List.forall_mem_singleton] at unbroken ⊢
    exact List.forall_mem_append.mpr ⟨List.forall_mem_append.mpr ⟨before, unbroken⟩, behind⟩
  | case3 front piece next more ih =>
    rw [List.forall_mem_cons] at unbroken ⊢
    exact ⟨List.forall_mem_append.mpr ⟨before, unbroken.1⟩, ih unbroken_nil unbroken.2⟩

namespace Document

variable {d : Document}

/-! ### Lines of a document -/

/-- A document has a line, and no line has a break in it. -/
structure Lined (d : Document) : Prop where
  inhabited : d.lines ≠ []
  unbroken : ∀ line ∈ d.lines, Unbroken line

/-- A document that commands make of some text. -/
inductive Reachable : Document → Prop where
  | opened (text : Bytes) : Reachable (ofText text)
  | performed {d : Document} (reached : Reachable d) (command : Command) : Reachable (d.perform command).1

/-- The lines of a document with room for a position: those above it, its own in two parts and those below. -/
structure Room (d : Document) (p : Position) (above : List Bytes) (front back : Bytes) (below : List Bytes) :
    Prop where
  number : above.length = p.line
  column : front.length = p.column
  split : ∃ line, stretch d.lines p.line = above ++ line :: below ∧ pad line p.column = front ++ back

theorem exists_room (d : Document) (p : Position) : ∃ above front back below, d.Room p above front back below := by
  have within : p.line < (stretch d.lines p.line).length := by
    rw [stretch, List.length_append, List.length_replicate]
    omega
  have wide (line : Bytes) : p.column ≤ (pad line p.column).length := by
    rw [pad, List.length_append, List.length_replicate]
    omega
  refine ⟨(stretch d.lines p.line).take p.line, (pad (stretch d.lines p.line)[p.line] p.column).take p.column,
    (pad (stretch d.lines p.line)[p.line] p.column).drop p.column, (stretch d.lines p.line).drop (p.line + 1),
    List.length_take_of_le (Nat.le_of_lt within), List.length_take_of_le (wide _), ?_⟩
  exact ⟨(stretch d.lines p.line)[p.line],
    by rw [← List.drop_eq_getElem_cons, List.take_append_drop], (List.take_append_drop _ _).symm⟩

theorem textUpTo_focus {p : Position} (lines : d.lines = above ++ line :: below) (number : above.length = p.line) :
    d.textUpTo p = followed above ++ line.take p.column := by
  rw [textUpTo, lineText, lines, ← number, List.take_left]
  simp [followed]

namespace Room

variable {p : Position} (room : d.Room p above front back below)
include room

theorem lines_insert (text : Bytes) :
    (d.insert p text).lines = above ++ enclose front back (splitLines text) ++ below := by
  obtain ⟨line, stretched, padded⟩ := room.split
  have shape : (d.insert p text).lines = (stretch d.lines p.line).take p.line ++
      enclose ((pad ((stretch d.lines p.line).getD p.line []) p.column).take p.column)
        ((pad ((stretch d.lines p.line).getD p.line []) p.column).drop p.column) (splitLines text) ++
      (stretch d.lines p.line).drop (p.line + 1) := rfl
  have own : (above ++ line :: below).getD p.line [] = line := by simp [← room.number]
  have after : (above ++ line :: below).drop (p.line + 1) = below := by simp [← room.number]
  rw [shape, stretched, own, padded, after, ← room.number, ← room.column, List.take_left, List.take_left,
    List.drop_left]

/-- The last inserted line, with the cursor behind what it got of the text. -/
theorem exists_line_insert (text : Bytes) : ∃ before last,
    (d.insert p text).lines = (above ++ before) ++ (last ++ back) :: below ∧
      (d.insert p text).cursor = ⟨(above ++ before).length, last.length⟩ ∧
      followed before ++ last = front ++ feedBreaks text := by
  have inhabited : splitLines text ≠ [] := by
    obtain ⟨lines, first⟩ := exists_splitLines text
    rw [first]
    exact List.cons_ne_nil _ _
  obtain ⟨before, last, pasted, joined, number, size⟩ := exists_enclose front back inhabited
  refine ⟨before, last, ?_, ?_, joined⟩
  · rw [room.lines_insert text, pasted, ← List.append_assoc, List.append_assoc, List.singleton_append]
  · have some := List.length_pos_iff.mpr inhabited
    show Position.within ⟨(splitLines text).length - 1, ((splitLines text).getLast?.getD []).length⟩ p = _
    rw [List.length_append, number, size, room.number, room.column, Position.within]
    by_cases single : (splitLines text).length = 1
    · simp [single]
    · rw [if_neg (by dsimp only; omega), if_neg single, Nat.zero_add]

/-- The text that a document has after an insertion, and how far its cursor then is. -/
theorem insert_text (text : Bytes) :
    (d.insert p text).text = followed above ++ (front ++ (feedBreaks text ++ (back ++ preceded below))) ∧
      (d.insert p text).textUpTo (d.insert p text).cursor = followed above ++ (front ++ feedBreaks text) := by
  obtain ⟨before, last, lines, place, joined⟩ := room.exists_line_insert text
  constructor
  · rw [Document.text, lines, joinLines_focus, followed_append, ← List.append_assoc front, ← joined]
    simp only [List.append_assoc]
  · rw [place, textUpTo_focus lines rfl, List.take_left, followed_append, List.append_assoc, joined]

theorem unbroken (lined : d.Lined) :
    (∀ line ∈ above, Unbroken line) ∧ (Unbroken front ∧ Unbroken back) ∧ ∀ line ∈ below, Unbroken line := by
  obtain ⟨line, stretched, padded⟩ := room.split
  have all := unbroken_stretch lined.unbroken p.line
  rw [stretched, List.forall_mem_append, List.forall_mem_cons] at all
  have own := unbroken_pad all.2.1 p.column
  rw [padded] at own
  exact ⟨all.1, List.forall_mem_append.mp own, all.2.2⟩

theorem extendTo_eq (lined : d.Lined) :
    extendTo p.line p.column d.text = followed above ++ (front ++ (back ++ preceded below)) := by
  obtain ⟨line, stretched, padded⟩ := room.split
  have joined := extendTo_joinLines lined.inhabited lined.unbroken p.column (room.number ▸ stretched)
  rw [padded, room.number, List.append_assoc] at joined
  exact joined

/-- The part of the extended text before the position, and the part behind it. -/
theorem extended (lined : d.Lined) :
    let text := extendTo p.line p.column d.text
    let offset := ((ofText text).textUpTo p).length
    text.take offset = followed above ++ front ∧ text.drop offset = back ++ preceded below := by
  obtain ⟨upper, own, lower⟩ := room.unbroken lined
  have lines : (ofText (extendTo p.line p.column d.text)).lines = above ++ (front ++ back) :: below := by
    rw [ofText, room.extendTo_eq lined, ← List.append_assoc front, ← joinLines_focus]
    refine splitLines_joinLines (by simp) ?_
    rw [List.forall_mem_append, List.forall_mem_cons]
    exact ⟨upper, List.forall_mem_append.mpr own, lower⟩
  have before : (ofText (extendTo p.line p.column d.text)).textUpTo p = followed above ++ front := by
    rw [textUpTo_focus lines room.number, ← room.column, List.take_left]
  intro text offset
  constructor
  · show List.take ((ofText (extendTo _ _ _)).textUpTo p).length (extendTo _ _ _) = _
    rw [before, room.extendTo_eq lined, ← List.append_assoc, List.take_left]
  · show List.drop ((ofText (extendTo _ _ _)).textUpTo p).length (extendTo _ _ _) = _
    rw [before, room.extendTo_eq lined, ← List.append_assoc, List.drop_left]

end Room

/-! ### Positions inside a document -/

def Inside (d : Document) (p : Position) : Prop :=
  p.line < d.lineCount ∧ p.column ≤ (d.lineText p.line).length

theorem check_eq_ok_iff (d : Document) (p : Position) : d.check p = .ok () ↔ d.Inside p := by
  unfold check Inside
  split
  · simp; omega
  · split
    · simp; omega
    · simp; omega

theorem check_of_inside {p : Position} (inside : d.Inside p) : d.check p = .ok () := (check_eq_ok_iff d p).mpr inside

theorem check_of_outside {p : Position} (outside : ¬ d.Inside p) : ∃ reason, d.check p = .error reason := by
  cases checked : d.check p with
  | ok => exact absurd ((check_eq_ok_iff d p).mp checked) outside
  | error reason => exact ⟨reason, rfl⟩

theorem lines_split {p : Position} (inside : p.line < d.lines.length) :
    d.lines = d.lines.take p.line ++ d.lineText p.line :: d.lines.drop (p.line + 1) := by
  have own : d.lineText p.line = d.lines[p.line] := by
    rw [lineText, List.getD_eq_getElem?_getD, List.getElem?_eq_getElem inside, Option.getD_some]
  rw [own, ← List.drop_eq_getElem_cons, List.take_append_drop]

/-- A position inside a document splits its text. -/
theorem text_split {p : Position} (inside : d.Inside p) :
    d.text = d.textUpTo p ++ ((d.lineText p.line).drop p.column ++ preceded (d.lines.drop (p.line + 1))) := by
  have split := lines_split inside.1
  have number : (d.lines.take p.line).length = p.line := List.length_take_of_le (Nat.le_of_lt inside.1)
  have focus := joinLines_focus (d.lines.take p.line) (d.lineText p.line) (d.lines.drop (p.line + 1))
  rw [← split] at focus
  rw [textUpTo_focus split number, Document.text, focus, List.append_assoc, ← List.append_assoc (List.take p.column _),
    List.take_append_drop]

theorem extendTo_of_inside (lined : d.Lined) {p : Position} (inside : d.Inside p) :
    extendTo p.line p.column d.text = d.text := by
  have split := lines_split inside.1
  have number : (d.lines.take p.line).length = p.line := List.length_take_of_le (Nat.le_of_lt inside.1)
  have stretched : stretch d.lines (d.lines.take p.line).length = d.lines := by
    rw [number]
    exact stretch_within inside.1
  have padded : pad (d.lineText p.line) p.column = d.lineText p.line := by
    rw [pad, Nat.sub_eq_zero_of_le inside.2, List.replicate_zero, List.append_nil]
  have joined := extendTo_joinLines lined.inhabited lined.unbroken p.column (stretched.trans split)
  rw [number, padded, ← joinLines_focus, ← split] at joined
  exact joined

/-- The lines of a document without what lies between two positions. -/
def cut (d : Document) (first last : Position) : List Bytes :=
  d.lines.take first.line ++ ((d.lineText first.line).take first.column ++ (d.lineText last.line).drop last.column) ::
    d.lines.drop (last.line + 1)

theorem joinLines_cut {first last : Position} (begins : d.Inside first) (ends : d.Inside last) :
    joinLines (d.cut first last) =
      d.text.take (d.textUpTo first).length ++ d.text.drop (d.textUpTo last).length := by
  have number : (d.lines.take first.line).length = first.line := List.length_take_of_le (Nat.le_of_lt begins.1)
  have before : d.text.take (d.textUpTo first).length = d.textUpTo first := by
    rw [text_split begins, List.take_left]
  have behind : d.text.drop (d.textUpTo last).length =
      (d.lineText last.line).drop last.column ++ preceded (d.lines.drop (last.line + 1)) := by
    rw [text_split ends, List.drop_left]
  rw [cut, joinLines_focus, before, behind, textUpTo_focus (lines_split begins.1) number]
  simp only [List.append_assoc]

theorem delete_of_inside {a b : Position} (first : d.Inside a) (second : d.Inside b) :
    d.delete a b = .ok (if b.before a then { d with lines := d.cut b a, cursor := b }
      else { d with lines := d.cut a b, cursor := a }) := by
  unfold delete
  rw [check_of_inside first, check_of_inside second]
  cases b.before a <;> rfl

theorem delete_of_outside {a b : Position} (outside : ¬ (d.Inside a ∧ d.Inside b)) :
    ∃ reason, d.delete a b = .error reason := by
  unfold delete
  by_cases first : d.Inside a
  · obtain ⟨reason, refused⟩ := check_of_outside fun second => outside ⟨first, second⟩
    exact ⟨reason, by rw [check_of_inside first, refused]; rfl⟩
  · obtain ⟨reason, refused⟩ := check_of_outside first
    exact ⟨reason, by rw [refused]; rfl⟩

/-! ### Reachable documents -/

theorem lined_ofText (text : Bytes) : (ofText text).Lined where
  inhabited := by
    obtain ⟨lines, first⟩ := exists_splitLines text
    rw [ofText, first]
    exact List.cons_ne_nil _ _
  unbroken := unbroken_splitLines text

theorem Lined.lineText (lined : d.Lined) (number : Nat) : Unbroken (d.lineText number) := by
  rw [Document.lineText, List.getD_eq_getElem?_getD]
  cases found : d.lines[number]? with
  | none => exact unbroken_nil
  | some line => exact lined.unbroken line (List.mem_of_getElem? found)

theorem Lined.insert (lined : d.Lined) (p : Position) (text : Bytes) : (d.insert p text).Lined := by
  obtain ⟨above, front, back, below, room⟩ := exists_room d p
  obtain ⟨upper, ⟨before, behind⟩, lower⟩ := room.unbroken lined
  obtain ⟨lines, first⟩ := exists_splitLines text
  obtain ⟨earlier, last, pasted, _⟩ := exists_enclose front back (first ▸ List.cons_ne_nil _ _)
  refine ⟨?_, ?_⟩
  · rw [room.lines_insert, pasted]
    simp
  · rw [room.lines_insert, List.forall_mem_append, List.forall_mem_append]
    exact ⟨⟨upper, unbroken_enclose before behind (unbroken_splitLines text)⟩, lower⟩

theorem Lined.cut (lined : d.Lined) (first last : Position) : ∀ line ∈ d.cut first last, Unbroken line := by
  rw [Document.cut, List.forall_mem_append, List.forall_mem_cons]
  refine ⟨fun line member => lined.unbroken line (List.mem_of_mem_take member), ?_,
    fun line member => lined.unbroken line (List.mem_of_mem_drop member)⟩
  refine List.forall_mem_append.mpr ⟨fun c member => ?_, fun c member => ?_⟩
  · exact lined.lineText first.line c (List.mem_of_mem_take member)
  · exact lined.lineText last.line c (List.mem_of_mem_drop member)

theorem cut_ne_nil (d : Document) (first last : Position) : d.cut first last ≠ [] := by
  simp [Document.cut]

theorem Lined.perform (lined : d.Lined) (command : Command) : (d.perform command).1.Lined := by
  cases command with
  | insert p text => exact lined.insert p text
  | delete a b =>
    by_cases inside : d.Inside a ∧ d.Inside b
    · rw [Document.perform, delete_of_inside inside.1 inside.2]
      cases b.before a with
      | true => exact ⟨cut_ne_nil d b a, lined.cut b a⟩
      | false => exact ⟨cut_ne_nil d a b, lined.cut a b⟩
    · obtain ⟨reason, refused⟩ := delete_of_outside inside
      rw [Document.perform, refused]
      exact lined
  | moveCursor p =>
    rw [Document.perform, moveCursor]
    cases d.check p with
    | ok => exact ⟨lined.inhabited, lined.unbroken⟩
    | error => exact lined
  | line index =>
    rw [Document.perform]
    split
    · exact lined
    · exact lined
  | _ => exact ⟨lined.inhabited, lined.unbroken⟩

theorem Reachable.lined (reachable : d.Reachable) : d.Lined := by
  induction reachable with
  | opened text => exact lined_ofText text
  | performed _ command ih => exact ih.perform command

/-- An insertion pastes the text, its breaks unified, at the offset of the position, after making the
document reach that. A deletion cuts out what lies between the offsets of its positions, and is refused
without effect unless both are inside the document. -/
theorem edits_refine_text (reachable : d.Reachable) :
    (∀ p text,
      let extended := extendTo p.line p.column d.text
      let offset := ((ofText extended).textUpTo p).length
      let edited := (d.perform (.insert p text)).1
      edited.text = extended.take offset ++ unifyBreaks text ++ extended.drop offset ∧
        edited.textUpTo edited.cursor = extended.take offset ++ unifyBreaks text ∧
        (d.Inside p → extended = d.text)) ∧
    (∀ a b, d.Inside a → d.Inside b →
      let first := if b.before a then b else a
      let last := if b.before a then a else b
      let edited := (d.perform (.delete a b)).1
      (d.perform (.delete a b)).2 = .done ∧
        edited.text = d.text.take (d.textUpTo first).length ++ d.text.drop (d.textUpTo last).length ∧
        edited.cursor = first) ∧
    ∀ a b, ¬ (d.Inside a ∧ d.Inside b) → ∃ reason, d.perform (.delete a b) = (d, .refused reason) := by
  refine ⟨fun p text => ?_, fun a b insideA insideB => ?_, fun a b outside => ?_⟩
  · obtain ⟨above, front, back, below, room⟩ := exists_room d p
    obtain ⟨taken, dropped⟩ := room.extended reachable.lined
    obtain ⟨pasted, upTo⟩ := room.insert_text text
    dsimp only
    rw [taken, dropped, ← feedBreaks_eq_unifyBreaks]
    refine ⟨pasted.trans ?_, upTo.trans ?_, extendTo_of_inside reachable.lined⟩
    · simp only [List.append_assoc]
    · simp only [List.append_assoc]
  · dsimp only
    rw [perform, delete_of_inside insideA insideB]
    cases b.before a with
    | true => exact ⟨rfl, joinLines_cut insideB insideA, rfl⟩
    | false => exact ⟨rfl, joinLines_cut insideA insideB, rfl⟩
  · obtain ⟨reason, refused⟩ := delete_of_outside outside
    exact ⟨reason, by rw [perform, refused]; rfl⟩

/-- Text is pasted two lines below the last, lines are cut out from the later end, and a column too many
is refused. -/
theorem remote_paste_and_reversed_cut :
    let d := ((ofText (ascii "ab
cd")).perform (.moveCursor ⟨1, 1⟩)).1
    d.Reachable ∧
      (d.perform (.insert ⟨3, 2⟩ (ascii "x
y"))).1.text = ascii "ab
cd

  x
y" ∧
      d.Inside ⟨1, 1⟩ ∧ d.Inside ⟨0, 1⟩ ∧ (d.perform (.delete ⟨1, 1⟩ ⟨0, 1⟩)).1.text = ascii "ad" ∧
      ¬ (d.Inside ⟨0, 3⟩ ∧ d.Inside ⟨1, 1⟩) ∧ ∃ reason, d.perform (.delete ⟨0, 3⟩ ⟨1, 1⟩) = (d, .refused reason) := by
  intro d
  have reachable : d.Reachable := .performed (.opened _) _
  obtain ⟨inserted, deleted, refused⟩ := edits_refine_text reachable
  have later : d.Inside ⟨1, 1⟩ := ⟨by decide, by decide⟩
  have earlier : d.Inside ⟨0, 1⟩ := ⟨by decide, by decide⟩
  have outside : ¬ (d.Inside ⟨0, 3⟩ ∧ d.Inside ⟨1, 1⟩) := fun both => absurd both.1.2 (by decide)
  refine ⟨reachable, ?_, later, earlier, ?_, outside, refused _ _ outside⟩
  · rw [(inserted ⟨3, 2⟩ (ascii "x
y")).1]
    decide +kernel
  · rw [(deleted ⟨1, 1⟩ ⟨0, 1⟩ later earlier).2.1]
    decide +kernel

end Document
end QueryService
