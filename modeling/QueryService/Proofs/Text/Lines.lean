import QueryService.Proofs.Text.Position

/-!
# Lines of a text

The number of lines, the offsets at which they begin, the lines themselves and the position of a place
are read off a text by scans of their own. They agree: `lineCount_eq_length`, `splitLines_eq_map` and
`exists_line_at`. Writing every break as a line feed changes neither the lines nor the position of any
place that does not cut a break in two (`advance_feedBreaks`).
-/

namespace QueryService

/-- The bytes up to the next line break. -/
def upToBreak (text : Bytes) : Bytes := text.takeWhile (!Byte.isBreak ·)

/-- The text with a line feed for every line break. -/
def feedBreaks (text : Bytes) : Bytes := joinLines (splitLines text)

/-- No line break is cut in two between `before` and `behind`. -/
def KeepsBreaks (before behind : Bytes) : Prop :=
  before.getLast? = some Byte.cr → behind.head? ≠ some Byte.lf

variable {c : UInt8} {rest text before behind : Bytes}

theorem endsLine_inner (inner : Byte.isBreak c = false) (rest : Bytes) : endsLine c rest = false := by
  simp only [Byte.isBreak, Bool.or_eq_false_iff] at inner
  simp [endsLine, inner]

theorem isBreak_of_endsLine (ends : endsLine c rest = true) : Byte.isBreak c = true := by
  cases ended : Byte.isBreak c with
  | true => rfl
  | false => rw [endsLine_inner ended] at ends; cases ends

theorem endsLine_of_single (ended : Byte.isBreak c = true)
    (single : ∀ later, c = Byte.cr → rest = Byte.lf :: later → False) : endsLine c rest = true := by
  rcases Bool.or_eq_true_iff.mp ended with feed | back
  · rw [endsLine, feed, Bool.true_or]
  · rw [endsLine, back, Bool.true_and, Bool.or_eq_true, bne_iff_ne]
    right
    intro next
    obtain ⟨later, ahead⟩ := List.head?_eq_some_iff.mp next
    exact single later (eq_of_beq back) ahead

theorem pair_of_break (ended : Byte.isBreak c = true) (goesOn : endsLine c rest = false) :
    c = Byte.cr ∧ ∃ later, rest = Byte.lf :: later := by
  rw [endsLine, Bool.or_eq_false_iff] at goesOn
  have back : (c == Byte.cr) = true := by
    rw [Byte.isBreak, goesOn.1, Bool.false_or] at ended
    exact ended
  rw [back, Bool.true_and, bne_eq_false_iff_eq] at goesOn
  exact ⟨eq_of_beq back, List.head?_eq_some_iff.mp goesOn.2⟩

/-- A text is read break by break and byte by byte, a carriage return with the line feed behind it. -/
theorem lineInduction {motive : Bytes → Prop} (nil : motive [])
    (pair : ∀ rest, motive rest → motive (Byte.cr :: Byte.lf :: rest))
    (ends : ∀ c rest, endsLine c rest = true → motive rest → motive (c :: rest))
    (inner : ∀ c rest, Byte.isBreak c = false → motive rest → motive (c :: rest)) (text : Bytes) :
    motive text := by
  induction text using splitLines.induct with
  | case1 => exact nil
  | case2 rest ih => exact pair rest ih
  | case3 c rest single ended ih => exact ends c rest (endsLine_of_single ended single) ih
  | case4 c rest single other _ ih => exact inner c rest (Bool.eq_false_iff.mpr other) ih
  | case5 c rest single other _ _ _ ih => exact inner c rest (Bool.eq_false_iff.mpr other) ih

/-! ### Lines and their number -/

theorem not_pair_of_endsLine (ends : endsLine c rest = true) :
    ∀ later, c = Byte.cr → rest = Byte.lf :: later → False := by
  rintro later rfl rfl
  cases ends

theorem not_pair_of_inner (inner : Byte.isBreak c = false) :
    ∀ later, c = Byte.cr → rest = Byte.lf :: later → False := by
  rintro later rfl
  cases inner

theorem splitLines_pair (rest : Bytes) : splitLines (Byte.cr :: Byte.lf :: rest) = [] :: splitLines rest := rfl

theorem splitLines_ends (ends : endsLine c rest = true) : splitLines (c :: rest) = [] :: splitLines rest := by
  rw [splitLines, if_pos (isBreak_of_endsLine ends)]
  exact not_pair_of_endsLine ends

theorem upToBreak_of_break (ended : Byte.isBreak c = true) : upToBreak (c :: rest) = [] := by
  rw [upToBreak, List.takeWhile_cons, ended]
  rfl

theorem upToBreak_inner (inner : Byte.isBreak c = false) : upToBreak (c :: rest) = c :: upToBreak rest := by
  rw [upToBreak, List.takeWhile_cons, inner]
  rfl

theorem upToBreak_append (before behind : Bytes) :
    ∃ later, upToBreak (before ++ behind) = upToBreak before ++ later := by
  rw [upToBreak, upToBreak, List.takeWhile_append]
  split
  · rename_i whole
    rw [(List.takeWhile_prefix _).eq_of_length whole]
    exact ⟨_, rfl⟩
  · exact ⟨[], (List.append_nil _).symm⟩

theorem exists_splitLines (text : Bytes) : ∃ lines, splitLines text = upToBreak text :: lines := by
  induction text using lineInduction with
  | nil => exact ⟨[], rfl⟩
  | pair rest _ => exact ⟨splitLines rest, rfl⟩
  | ends c rest ends _ =>
    exact ⟨splitLines rest, by rw [splitLines_ends ends, upToBreak_of_break (isBreak_of_endsLine ends)]⟩
  | inner c rest inner ih =>
    obtain ⟨lines, first⟩ := ih
    refine ⟨lines, ?_⟩
    rw [splitLines, if_neg (by simp [inner]), first, upToBreak_inner inner]
    exact not_pair_of_inner inner

theorem splitLines_inner {lines : List Bytes} (inner : Byte.isBreak c = false)
    (first : splitLines rest = upToBreak rest :: lines) :
    splitLines (c :: rest) = (c :: upToBreak rest) :: lines := by
  rw [splitLines, if_neg (by simp [inner]), first]
  exact not_pair_of_inner inner

theorem lineCount_eq_length (text : Bytes) : lineCount text = (splitLines text).length := by
  induction text using lineInduction with
  | nil => rfl
  | pair rest ih =>
    rw [splitLines_pair, List.length_cons, ← ih]
    rfl
  | ends c rest ends ih =>
    rw [lineCount, if_pos (isBreak_of_endsLine ends), ih, splitLines_ends ends, List.length_cons]
    exact not_pair_of_endsLine ends
  | inner c rest inner ih =>
    obtain ⟨lines, first⟩ := exists_splitLines rest
    rw [lineCount, if_neg (by simp [inner]), ih, splitLines_inner inner first, first, List.length_cons, List.length_cons]
    exact not_pair_of_inner inner

theorem laterLineStarts_add (offset n : Nat) (text : Bytes) :
    laterLineStarts (offset + n) text = (laterLineStarts offset text).map (· + n) := by
  induction text generalizing offset with
  | nil => rfl
  | cons c rest ih =>
    simp only [laterLineStarts]
    rw [Nat.add_right_comm, ih]
    split
    · rw [List.map_cons, Nat.add_right_comm]
    · rfl

theorem lineStarts_pair (rest : Bytes) :
    lineStarts (Byte.cr :: Byte.lf :: rest) = 0 :: (lineStarts rest).map (· + 2) := by
  have later := laterLineStarts_add 0 2 rest
  rw [Nat.zero_add] at later
  rw [lineStarts, lineStarts, List.map_cons, ← later]
  rfl

theorem lineStarts_ends (ends : endsLine c rest = true) :
    lineStarts (c :: rest) = 0 :: (lineStarts rest).map (· + 1) := by
  have later := laterLineStarts_add 0 1 rest
  rw [Nat.zero_add] at later
  rw [lineStarts, laterLineStarts, if_pos ends, lineStarts, List.map_cons, ← later]

theorem lineStarts_inner (inner : Byte.isBreak c = false) :
    lineStarts (c :: rest) = 0 :: (laterLineStarts 0 rest).map (· + 1) := by
  rw [lineStarts, laterLineStarts, endsLine_inner inner, ← laterLineStarts_add]
  rfl

/-- Each line is what stands from its start up to the next break. -/
theorem splitLines_eq_map (text : Bytes) :
    splitLines text = (lineStarts text).map fun start => upToBreak (text.drop start) := by
  induction text using lineInduction with
  | nil => rfl
  | pair rest ih =>
    rw [splitLines_pair, lineStarts_pair, ih, List.map_cons, List.map_map]
    rfl
  | ends c rest ends ih =>
    rw [splitLines_ends ends, lineStarts_ends ends, ih, List.map_cons, List.map_map, List.drop_zero,
      upToBreak_of_break (isBreak_of_endsLine ends)]
    rfl
  | inner c rest inner ih =>
    obtain ⟨lines, first⟩ := exists_splitLines rest
    rw [first, lineStarts, List.map_cons, List.cons.injEq] at ih
    rw [splitLines_inner inner first, lineStarts_inner inner, List.map_cons, List.map_map, ih.2, List.drop_zero,
      upToBreak_inner inner]
    rfl

/-! ### Places in a line -/

theorem KeepsBreaks.tail (keeps : KeepsBreaks (c :: before) behind) : KeepsBreaks before behind := by
  intro back
  apply keeps
  rw [List.getLast?_cons, back]
  rfl

theorem KeepsBreaks.append {later : Bytes} (first : KeepsBreaks before (later ++ behind))
    (second : KeepsBreaks later behind) : KeepsBreaks (before ++ later) behind := by
  intro back
  rw [List.getLast?_append] at back
  cases last : later.getLast? with
  | none =>
    rw [List.getLast?_eq_none_iff] at last
    rw [last] at back first
    exact first back
  | some d =>
    rw [last] at back
    exact second (last.trans back)

theorem KeepsBreaks.cons (keeps : KeepsBreaks before behind) (other : c ≠ Byte.cr) :
    KeepsBreaks (c :: before) behind := by
  have first : KeepsBreaks [c] (before ++ behind) := fun back => absurd (Option.some.inj back) other
  exact first.append keeps

namespace Position

theorem advance_from (origin : Position) (n : Nat) (text : Bytes) :
    origin.advance n text = (({} : Position).advance n text).within origin := by
  rw [advance_within, within_start]

theorem within_line (p : Position) (line : Nat) : p.within ⟨line, 0⟩ = ⟨line + p.line, p.column⟩ := by
  unfold within
  split
  · rename_i first
    rw [first, Nat.zero_add, Nat.add_zero]
  · rfl

theorem advance_pair (p : Position) (n : Nat) (rest : Bytes) :
    p.advance (n + 2) (Byte.cr :: Byte.lf :: rest) = Position.advance ⟨p.line + 1, 0⟩ n rest := rfl

theorem advance_ends (p : Position) (n : Nat) (ends : endsLine c rest = true) :
    p.advance (n + 1) (c :: rest) = Position.advance ⟨p.line + 1, 0⟩ n rest := by
  rw [advance_cons, step, if_pos ends]

theorem advance_inner (p : Position) (n : Nat) (rest : Bytes) (inner : Byte.isBreak c = false) :
    p.advance (n + 1) (c :: rest) = Position.advance ⟨p.line, p.column + 1⟩ n rest := by
  rw [advance_cons, step, endsLine_inner inner, if_neg Bool.false_ne_true]

end Position

/-- A place that cuts no break lies in the line of its position, at the column of its position. -/
theorem exists_line_at {n : Nat} (keeps : KeepsBreaks (text.take n) (text.drop n)) :
    ∃ before, before.length = (({} : Position).advance n text).column ∧
      (splitLines text)[(({} : Position).advance n text).line]? = some (before ++ upToBreak (text.drop n)) := by
  have start (text : Bytes) : (splitLines text)[0]? = some ([] ++ upToBreak text) := by
    obtain ⟨lines, first⟩ := exists_splitLines text
    rw [first]
    rfl
  induction text using lineInduction generalizing n with
  | nil => exact ⟨[], by rw [Position.advance_nil]; rfl, by rw [Position.advance_nil, List.drop_nil]; rfl⟩
  | pair rest ih =>
    obtain _ | _ | n := n
    · exact ⟨[], rfl, start _⟩
    · exact absurd rfl (keeps rfl)
    · obtain ⟨before, column, line⟩ := ih keeps.tail.tail
      rw [Position.advance_pair, Position.advance_from, Position.within_line]
      refine ⟨before, column, ?_⟩
      rw [splitLines_pair, Nat.add_comm, List.getElem?_cons_succ]
      exact line
  | ends c rest ends ih =>
    obtain _ | n := n
    · exact ⟨[], rfl, start _⟩
    · obtain ⟨before, column, line⟩ := ih keeps.tail
      rw [Position.advance_ends _ _ ends, Position.advance_from, Position.within_line]
      refine ⟨before, column, ?_⟩
      rw [splitLines_ends ends, Nat.add_comm, List.getElem?_cons_succ]
      exact line
  | inner c rest inner ih =>
    obtain _ | n := n
    · exact ⟨[], rfl, start _⟩
    · obtain ⟨before, column, line⟩ := ih keeps.tail
      obtain ⟨lines, first⟩ := exists_splitLines rest
      rw [Position.advance_inner _ _ _ inner, Position.advance_from, splitLines_inner inner first, Position.within]
      rw [first] at line
      -- The byte stands before the place only if no break lies between them.
      split
      · rename_i zero
        rw [zero] at line
        refine ⟨c :: before, by rw [List.length_cons, column, Nat.add_comm], ?_⟩
        rw [List.getElem?_cons_zero] at line ⊢
        rw [Option.some.inj line]
        rfl
      · rename_i later
        obtain ⟨k, further⟩ := Nat.exists_eq_succ_of_ne_zero later
        refine ⟨before, column, ?_⟩
        dsimp only
        rw [Nat.zero_add, further, List.getElem?_cons_succ]
        rwa [further, List.getElem?_cons_succ] at line

/-! ### Breaks written as line feeds -/

theorem joinLines_cons (line next : Bytes) (lines : List Bytes) :
    joinLines (line :: next :: lines) = line ++ Byte.lf :: joinLines (next :: lines) := by
  simp [joinLines, List.intercalate]

theorem joinLines_splitLines (line text : Bytes) :
    joinLines (line :: splitLines text) = line ++ Byte.lf :: feedBreaks text := by
  obtain ⟨lines, first⟩ := exists_splitLines text
  rw [feedBreaks, first, joinLines_cons]

theorem feedBreaks_nil : feedBreaks [] = [] := rfl

theorem feedBreaks_pair (rest : Bytes) :
    feedBreaks (Byte.cr :: Byte.lf :: rest) = Byte.lf :: feedBreaks rest := by
  rw [feedBreaks, splitLines_pair, joinLines_splitLines, List.nil_append]

theorem feedBreaks_ends (ends : endsLine c rest = true) : feedBreaks (c :: rest) = Byte.lf :: feedBreaks rest := by
  rw [feedBreaks, splitLines_ends ends, joinLines_splitLines, List.nil_append]

theorem feedBreaks_inner (rest : Bytes) (inner : Byte.isBreak c = false) :
    feedBreaks (c :: rest) = c :: feedBreaks rest := by
  obtain ⟨lines, first⟩ := exists_splitLines rest
  rw [feedBreaks, feedBreaks, splitLines_inner inner first, first]
  cases lines with
  | nil => simp [joinLines, List.intercalate]
  | cons next lines => rw [joinLines_cons, joinLines_cons, List.cons_append]

theorem endsLine_append (keeps : KeepsBreaks (c :: before) behind) :
    endsLine c (before ++ behind) = endsLine c before := by
  cases before with
  | cons d before => rfl
  | nil =>
    rw [List.nil_append, endsLine, endsLine]
    cases back : c == Byte.cr with
    | false => rw [Bool.false_and, Bool.false_and]
    | true =>
      have single : behind.head? ≠ some Byte.lf := keeps (congrArg some (eq_of_beq back))
      rw [bne_iff_ne.mpr single]
      rfl

theorem feedBreaks_append (keeps : KeepsBreaks before behind) :
    feedBreaks (before ++ behind) = feedBreaks before ++ feedBreaks behind := by
  induction before using lineInduction with
  | nil => rfl
  | pair rest ih =>
    rw [List.cons_append, List.cons_append, feedBreaks_pair, feedBreaks_pair, ih keeps.tail.tail, List.cons_append]
  | ends c rest ends ih =>
    have still : endsLine c (rest ++ behind) = true := by rw [endsLine_append keeps, ends]
    rw [List.cons_append, feedBreaks_ends still, feedBreaks_ends ends, ih keeps.tail, List.cons_append]
  | inner c rest inner ih =>
    rw [List.cons_append, feedBreaks_inner _ inner, feedBreaks_inner _ inner, ih keeps.tail, List.cons_append]

/-- A place that cuts no break keeps its position when the breaks become line feeds. -/
theorem advance_feedBreaks (p : Position) (keeps : KeepsBreaks before behind) :
    p.advance (feedBreaks before).length (feedBreaks (before ++ behind)) =
      p.advance before.length (before ++ behind) := by
  induction before using lineInduction generalizing p with
  | nil => rw [feedBreaks_nil, List.length_nil, Position.advance_zero, Position.advance_zero]
  | pair rest ih =>
    rw [List.cons_append, List.cons_append, feedBreaks_pair, feedBreaks_pair, List.length_cons,
      Position.advance_ends _ _ rfl, ih _ keeps.tail.tail, List.length_cons, List.length_cons, Position.advance_pair]
  | ends c rest ends ih =>
    have still : endsLine c (rest ++ behind) = true := by rw [endsLine_append keeps, ends]
    rw [List.cons_append, feedBreaks_ends ends, feedBreaks_ends still, List.length_cons,
      Position.advance_ends _ _ rfl, ih _ keeps.tail, List.length_cons, Position.advance_ends _ _ still]
  | inner c rest inner ih =>
    rw [List.cons_append, feedBreaks_inner _ inner, feedBreaks_inner _ inner, List.length_cons,
      Position.advance_inner _ _ _ inner, ih _ keeps.tail, List.length_cons, Position.advance_inner _ _ _ inner]

theorem upToBreak_feedBreaks (text : Bytes) : upToBreak (feedBreaks text) = upToBreak text := by
  induction text using lineInduction with
  | nil => rfl
  | pair rest _ => rw [feedBreaks_pair]; rfl
  | ends c rest ends _ => rw [feedBreaks_ends ends, upToBreak_of_break (isBreak_of_endsLine ends)]; rfl
  | inner c rest inner ih => rw [feedBreaks_inner rest inner, upToBreak_inner inner, upToBreak_inner inner, ih]

end QueryService
