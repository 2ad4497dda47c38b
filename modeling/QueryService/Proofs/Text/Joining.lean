import QueryService.Proofs.Text.Lines

/-!
# Lines put together

The text of some lines is that of the lines above one of them, each with its break, then the line, then
those below it, each behind a break (`joinLines_focus`). Lines that hold no breaks are read back from
their text (`splitLines_joinLines`).
-/

namespace QueryService

variable {line : Bytes} {lines : List Bytes}

/-! ### Unified breaks -/

/-- The text with a line feed for each carriage return and for each pair of one with a line feed. -/
def unifyBreaks : Bytes → Bytes
  | [] => []
  | Byte.cr :: Byte.lf :: rest => Byte.lf :: unifyBreaks rest
  | c :: rest => (if c = Byte.cr then Byte.lf else c) :: unifyBreaks rest

theorem feedBreaks_eq_unifyBreaks (text : Bytes) : feedBreaks text = unifyBreaks text := by
  induction text using lineInduction with
  | nil => rfl
  | pair rest ih => rw [feedBreaks_pair, ih]; rfl
  | ends c rest ends ih =>
    rw [feedBreaks_ends ends, ih, unifyBreaks]
    · rcases Bool.or_eq_true_iff.mp (isBreak_of_endsLine ends) with feed | back
      · rw [eq_of_beq feed]; rfl
      · rw [eq_of_beq back, if_pos rfl]
    · exact not_pair_of_endsLine ends
  | inner c rest inner ih =>
    have other : c ≠ Byte.cr := by
      rintro rfl
      cases inner
    rw [feedBreaks_inner rest inner, ih, unifyBreaks, if_neg other]
    exact not_pair_of_inner inner

/-! ### Lines with their breaks -/

def Unbroken (line : Bytes) : Prop := ∀ c ∈ line, Byte.isBreak c = false

theorem unbroken_nil : Unbroken [] := by simp [Unbroken]

/-- Lines with a break after each. -/
def followed (lines : List Bytes) : Bytes := lines.flatMap (· ++ [Byte.lf])

/-- Lines with a break before each. -/
def preceded (lines : List Bytes) : Bytes := lines.flatMap (Byte.lf :: ·)

@[simp] theorem followed_nil : followed [] = [] := rfl

@[simp] theorem preceded_nil : preceded [] = [] := rfl

theorem followed_cons (line : Bytes) (lines : List Bytes) :
    followed (line :: lines) = line ++ Byte.lf :: followed lines := by
  simp [followed]

theorem followed_append (above below : List Bytes) :
    followed (above ++ below) = followed above ++ followed below := List.flatMap_append

theorem joinLines_head (line : Bytes) (below : List Bytes) : joinLines (line :: below) = line ++ preceded below := by
  induction below generalizing line with
  | nil => simp [joinLines, List.intercalate]
  | cons next below ih => rw [joinLines_cons, ih, preceded, preceded, List.flatMap_cons, List.cons_append]

/-- The text of a document around one of its lines. -/
theorem joinLines_focus (above : List Bytes) (line : Bytes) (below : List Bytes) :
    joinLines (above ++ line :: below) = followed above ++ (line ++ preceded below) := by
  induction above with
  | nil => exact joinLines_head line below
  | cons first above ih =>
    obtain ⟨next, more, split⟩ : ∃ next more, above ++ line :: below = next :: more := by
      cases above with
      | nil => exact ⟨line, below, rfl⟩
      | cons next above => exact ⟨next, above ++ line :: below, rfl⟩
    rw [List.cons_append, split, joinLines_cons, ← split, ih, followed_cons, List.append_assoc, List.cons_append]

theorem splitLines_unbroken (unbroken : Unbroken line) : splitLines line = [line] := by
  induction line with
  | nil => rfl
  | cons c rest ih =>
    have inner := unbroken c List.mem_cons_self
    have later := ih fun d member => unbroken d (List.mem_cons_of_mem c member)
    rw [splitLines, if_neg (by simp [inner]), later]
    exact not_pair_of_inner inner

theorem splitLines_line (unbroken : Unbroken line) (rest : Bytes) :
    splitLines (line ++ Byte.lf :: rest) = line :: splitLines rest := by
  induction line with
  | nil => rfl
  | cons c line ih =>
    have inner := unbroken c List.mem_cons_self
    have later := ih fun d member => unbroken d (List.mem_cons_of_mem c member)
    rw [List.cons_append, splitLines, if_neg (by simp [inner]), later]
    exact not_pair_of_inner inner

/-- Lines are read back from their text. -/
theorem splitLines_joinLines (inhabited : lines ≠ []) (unbroken : ∀ line ∈ lines, Unbroken line) :
    splitLines (joinLines lines) = lines := by
  induction lines with
  | nil => contradiction
  | cons line below ih =>
    have first := unbroken line List.mem_cons_self
    cases below with
    | nil =>
      rw [joinLines_head, preceded_nil, List.append_nil]
      exact splitLines_unbroken first
    | cons next below =>
      have later := ih (List.cons_ne_nil next below) fun l member => unbroken l (List.mem_cons_of_mem line member)
      rw [joinLines_cons, splitLines_line first, later]

theorem unbroken_splitLines (text : Bytes) : ∀ line ∈ splitLines text, Unbroken line := by
  induction text using lineInduction with
  | nil => exact List.forall_mem_singleton.mpr unbroken_nil
  | pair rest ih =>
    rw [splitLines_pair]
    exact List.forall_mem_cons.mpr ⟨unbroken_nil, ih⟩
  | ends c rest ends ih =>
    rw [splitLines_ends ends]
    exact List.forall_mem_cons.mpr ⟨unbroken_nil, ih⟩
  | inner c rest inner ih =>
    obtain ⟨lines, first⟩ := exists_splitLines rest
    rw [first, List.forall_mem_cons] at ih
    rw [splitLines_inner inner first, List.forall_mem_cons]
    refine ⟨?_, ih.2⟩
    intro d member
    rcases List.mem_cons.mp member with rfl | member
    · exact inner
    · exact ih.1 d member

end QueryService
