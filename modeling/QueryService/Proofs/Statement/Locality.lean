import QueryService.Proofs.Statement.Partition

/-!
# Statements of a text put together from two

Behind a semicolon that ends a statement the search for statements begins anew, whatever was read before.
A text cut there is read in two parts: its statements are those of the first part, followed by those of
the second, moved to where that part begins (`parse_append`).
-/

namespace QueryService

namespace Passage

/-- Whether the last byte of a text is a semicolon that ends a statement, where the text begins in `p`. -/
def cutAtEnd : Passage → Bytes → Bool
  | _, [] => false
  | .code, [c] => c == Byte.semicolon
  | .code, c :: next :: rest =>
    if Byte.isQuote c then cutAtEnd (.string c) (next :: rest)
    else if (c == Byte.minus || c == Byte.slash) && next == c then cutAtEnd .lineComment rest
    else if c == Byte.slash && next == Byte.star then cutAtEnd .blockComment rest
    else cutAtEnd .code (next :: rest)
  | .string _, [_] => false
  | .string quote, c :: next :: rest =>
    if c == Byte.backslash then cutAtEnd (.string quote) rest
    else if c == quote then cutAtEnd .code (next :: rest)
    else cutAtEnd (.string quote) (next :: rest)
  | .lineComment, c :: rest => cutAtEnd (if Byte.isBreak c then .code else .lineComment) rest
  | .blockComment, Byte.star :: Byte.slash :: rest => cutAtEnd .code rest
  | .blockComment, _ :: rest => cutAtEnd .blockComment rest

/-- The search for the end of a statement stops inside `text`, whatever follows, or reads over its end. -/
inductive Search (p : Passage) (text : Bytes) : Prop where
  | stops (n : Nat) (inside : n ≤ text.length) (found : ∀ behind, p.statementLength (text ++ behind) = n)
      (cut : p.cutAtEnd text = true ↔ n = text.length ∨ code.cutAtEnd (text.drop n) = true)
  | goesOn (uncut : p.cutAtEnd text = false) (further : ∀ c, text.length < p.statementLength (text ++ [c]))

variable {p q : Passage} {text rest : Bytes}

/-- A search that reads some bytes and goes on in another passage stops where that one stops. -/
theorem Search.read (search : q.Search rest) (lead : Bytes) (cut : p.cutAtEnd (lead ++ rest) = q.cutAtEnd rest)
    (reads : ∀ behind, p.statementLength (lead ++ (rest ++ behind)) = q.statementLength (rest ++ behind) + lead.length) :
    p.Search (lead ++ rest) := by
  cases search with
  | stops n inside found ended =>
    refine .stops (lead.length + n) ?_ ?_ ?_
    · rw [List.length_append]
      omega
    · intro behind
      rw [List.append_assoc, reads, found, Nat.add_comm]
    · rw [cut, ended, List.length_append, Nat.add_left_cancel_iff, ← List.drop_drop, List.drop_left]
  | goesOn uncut further =>
    refine .goesOn (cut.trans uncut) fun d => ?_
    have := further d
    rw [List.append_assoc, reads, List.length_append]
    omega

theorem search_nil (p : Passage) : p.Search [] := by
  refine .goesOn (by cases p <;> rfl) fun c => ?_
  exact statementLength_pos p (List.cons_ne_nil c [])

theorem search_last (c : UInt8) : code.Search [c] := by
  by_cases ends : c = Byte.semicolon
  · subst ends
    refine .stops 1 (Nat.le_refl 1) ?_ ?_
    · rintro (_ | ⟨next, rest⟩) <;> rfl
    · exact iff_of_true rfl (Or.inl rfl)
  · have other : (c == Byte.semicolon) = false := beq_false_of_ne ends
    refine .goesOn other fun d => ?_
    simp only [List.cons_append, List.nil_append, statementLength, other, Bool.false_eq_true, if_false]
    repeat' split
    all_goals simp

theorem search_string_last (quote c : UInt8) : (string quote).Search [c] := by
  refine .goesOn rfl fun d => ?_
  simp only [List.cons_append, List.nil_append, statementLength]
  repeat' split
  all_goals simp

/-- A star at the end of a text may be half of what closes the comment. -/
theorem search_blockComment_last (c : UInt8) : blockComment.Search [c] := by
  refine .goesOn (by simp [cutAtEnd]) fun d => ?_
  by_cases closes : c = Byte.star ∧ d = Byte.slash
  · obtain ⟨rfl, rfl⟩ := closes
    decide
  · have unended : ∀ later, c = Byte.star → [d] = Byte.slash :: later → False := by
      rintro later star slash
      exact closes ⟨star, (List.cons.inj slash).1⟩
    rw [List.cons_append, List.nil_append, statementLength]
    · simp [statementLength]
    · exact unended

theorem search (p : Passage) (text : Bytes) : p.Search text := by
  fun_induction cutAtEnd p text with
  | case1 p => exact search_nil p
  | case2 c => exact search_last c
  | case3 c next rest quote ih =>
    exact ih.read [c] (by simp [cutAtEnd, quote]) fun behind => by simp [statementLength, quote]
  | case4 c next rest quote line ih =>
    exact ih.read [c, next] (by simp [cutAtEnd, quote, line]) fun behind => by simp [statementLength, quote, line]
  | case5 c next rest quote line block ih =>
    exact ih.read [c, next] (by simp [cutAtEnd, quote, line, block]) fun behind => by
      simp [statementLength, quote, line, block]
  | case6 c next rest quote line block ih =>
    by_cases ends : c = Byte.semicolon
    · subst ends
      have after : code.cutAtEnd (Byte.semicolon :: next :: rest) = code.cutAtEnd (next :: rest) := by
        rw [cutAtEnd, if_neg quote, if_neg line, if_neg block]
      refine .stops 1 (by simp) (fun behind => rfl) ?_
      simp [after]
    · have other : (c == Byte.semicolon) = false := beq_false_of_ne ends
      exact ih.read [c] (by simp [cutAtEnd, quote, line, block]) fun behind => by
        simp [statementLength, quote, line, block, other]
  | case7 quote c => exact search_string_last quote c
  | case8 quote c next rest escape ih =>
    exact ih.read [c, next] (by simp [cutAtEnd, escape]) fun behind => by simp [statementLength, escape]
  | case9 quote c next rest whole closing ih =>
    exact ih.read [c] (by simp [cutAtEnd, whole, closing]) fun behind => by
      simp [statementLength, whole, closing]
  | case10 quote c next rest whole other ih =>
    exact ih.read [c] (by simp [cutAtEnd, whole, other]) fun behind => by
      simp [statementLength, whole, other]
  | case11 c rest ih => exact ih.read [c] (by simp [cutAtEnd]) fun behind => by simp [statementLength]
  | case12 rest ih => exact ih.read [Byte.star, Byte.slash] rfl fun behind => rfl
  | case13 c rest unended ih =>
    cases rest with
    | nil => exact search_blockComment_last c
    | cons d rest =>
      refine ih.read [c] ?_ fun behind => ?_
      · rw [List.cons_append, List.nil_append, cutAtEnd]
        exact unended
      · rw [List.cons_append, List.nil_append, List.cons_append, statementLength]
        · rfl
        · rintro later star slash
          exact unended rest star (by rw [(List.cons.inj slash).1])

end Passage

variable {text behind : Bytes}

/-- Behind a cut the pieces are those of what follows. -/
theorem segments_append (start : Nat) (cut : Passage.code.cutAtEnd text = true) (behind : Bytes) :
    segments start (text ++ behind) = segments start text ++ segments (start + text.length) behind := by
  induction text using segmentInduction generalizing start with
  | nil => cases cut
  | cons text nonempty ih =>
    cases Passage.code.search text with
    | goesOn uncut further => rw [uncut] at cut; cases cut
    | stops n inside found ended =>
      have alone := found []
      rw [List.append_nil] at alone
      have longer : text ++ behind ≠ [] := List.append_ne_nil_of_left_ne_nil nonempty behind
      rw [alone] at ih
      rw [segments_cons start nonempty, segments_cons start longer, alone, found,
        List.take_append_of_le_length inside, List.drop_append_of_le_length inside, List.cons_append]
      congr 1
      rcases ended.mp cut with whole | later
      · rw [whole, List.drop_length, segments_nil, List.nil_append, List.nil_append]
      · rw [ih _ later, List.length_drop, Nat.add_assoc, Nat.add_sub_cancel' inside]

/-- A text is cut at its end exactly if one more byte begins a new piece, whatever byte it is. -/
theorem cutAtEnd_iff (nonempty : text ≠ []) (c : UInt8) :
    Passage.code.cutAtEnd text = true ↔ text.length ∈ (segments 0 (text ++ [c])).map Prod.fst := by
  suffices shifted : ∀ start, Passage.code.cutAtEnd text = true ↔
      start + text.length ∈ (segments start (text ++ [c])).map Prod.fst by
    simpa using shifted 0
  induction text using segmentInduction with
  | nil => contradiction
  | cons text nonempty ih =>
    intro start
    have positive := List.length_pos_iff.mpr nonempty
    rw [segments_cons start (List.append_ne_nil_of_left_ne_nil nonempty [c]), List.map_cons, List.mem_cons,
      or_iff_right (by omega)]
    cases Passage.code.search text with
    | goesOn uncut further =>
      have beyond := further c
      rw [List.drop_eq_nil_of_le (by rw [List.length_append]; exact beyond), segments_nil, uncut]
      simp
    | stops n inside found ended =>
      have alone := found []
      rw [List.append_nil] at alone
      rw [alone] at ih
      rw [ended, found, List.drop_append_of_le_length inside]
      by_cases whole : n = text.length
      · refine iff_of_true (Or.inl whole) ?_
        rw [whole, List.drop_length, segments_cons _ (by simp)]
        exact List.mem_cons_self
      · have left : text.drop n ≠ [] := by
          rw [ne_eq, List.drop_eq_nil_iff]
          omega
        rw [or_iff_right whole, ih left (start + n), List.length_drop, Nat.add_assoc, Nat.add_sub_cancel' inside]

theorem getLast?_of_cutAtEnd (cut : Passage.code.cutAtEnd text = true) : text.getLast? = some Byte.semicolon := by
  induction text using segmentInduction with
  | nil => cases cut
  | cons text nonempty ih =>
    cases Passage.code.search text with
    | goesOn uncut further => rw [uncut] at cut; cases cut
    | stops n inside found ended =>
      have alone := found []
      rw [List.append_nil] at alone
      rw [alone] at ih
      rcases ended.mp cut with whole | later
      · have stop := found [Byte.space]
        have last := getLast?_take_statementLength .code (text ++ [Byte.space]) (by simp [stop, whole])
        rwa [stop, whole, List.take_left] at last
      · rw [← List.take_append_drop n text, List.getLast?_append, ih later]
        rfl

/-! ### Places -/

namespace Position

theorem within_within (p inner outer : Position) : (p.within inner).within outer = p.within (inner.within outer) := by
  unfold within
  by_cases first : p.line = 0 <;> by_cases second : inner.line = 0 <;> simp [first, second, Nat.add_assoc]

theorem advance_append (p : Position) (keeps : KeepsBreaks text behind) :
    p.advance text.length (text ++ behind) = p.advance text.length text := by
  induction text generalizing p with
  | nil => simp
  | cons c rest ih =>
    rw [List.length_cons, List.cons_append, advance_cons, advance_cons, step, step, endsLine_append keeps,
      ih _ keeps.tail]

end Position

theorem keepsBreaks_of_cutAtEnd (cut : Passage.code.cutAtEnd text = true) (behind : Bytes) :
    KeepsBreaks text behind := by
  intro back
  rw [getLast?_of_cutAtEnd cut] at back
  cases back

theorem locate_append_left {n : Nat} (inside : n < text.length) (behind : Bytes) :
    locate (lineStarts (text ++ behind)) n = locate (lineStarts text) n := by
  have short : n ≤ (text ++ behind).length := by
    rw [List.length_append]
    omega
  rw [locate_lineStarts short, locate_lineStarts (Nat.le_of_lt inside),
    Position.advance_of_prefix _ (List.prefix_append text behind) inside]

theorem locate_append_right {n : Nat} (keeps : KeepsBreaks text behind) (inside : n ≤ behind.length) :
    locate (lineStarts (text ++ behind)) (text.length + n) =
      (locate (lineStarts behind) n).within (locate (lineStarts text) text.length) := by
  have short : text.length + n ≤ (text ++ behind).length := by
    rw [List.length_append]
    omega
  rw [locate_lineStarts short, locate_lineStarts inside, locate_lineStarts (Nat.le_refl _), Position.advance_add,
    Position.advance_append _ keeps, List.drop_left, Position.advance_from]

theorem segments_add (offset start : Nat) (text : Bytes) :
    segments (offset + start) text = (segments start text).map fun piece => (offset + piece.1, piece.2) := by
  induction text using segmentInduction generalizing start with
  | nil => simp [segments_nil]
  | cons text nonempty ih =>
    rw [segments_cons _ nonempty, segments_cons start nonempty, List.map_cons, Nat.add_assoc, ih]

namespace Statement

/-- A statement of a passage, moved into the text where the passage starts at `origin`, `offset` bytes in. -/
def within (s : Statement) (offset : Nat) (origin : Position) : Statement :=
  { s with
    start := offset + s.start
    stop := offset + s.stop
    first := s.first.within origin
    last := s.last.within origin
    tokens := s.tokens.map (·.within offset origin) }

theorem ofCode_within (code : Bytes) (start offset : Nat) (inner origin : Position) :
    (ofCode code start inner).within offset origin = ofCode code (offset + start) (inner.within origin) := by
  have tokens (t : Token) : (t.within start inner).within offset origin =
      t.within (offset + start) (inner.within origin) := by
    simp [Token.within, Position.within_within, Nat.add_assoc]
  simp [ofCode, within, tokens, Position.within_within, Nat.add_assoc]

theorem run_lt_of_trim {p : UInt8 → Bool} (nonempty : Bytes.trim p text ≠ []) : Bytes.run p text < text.length := by
  have kept := (Bytes.trim_prefix p text).length_le
  have positive := List.length_pos_iff.mpr nonempty
  rw [List.length_drop] at kept
  omega

theorem ofSegment?_append_left {piece : Nat × Bytes} (cut : piece ∈ segments 0 text) (behind : Bytes) :
    ofSegment? (text ++ behind) piece = ofSegment? text piece := by
  unfold ofSegment?
  dsimp only
  split
  · rfl
  · rename_i nonempty
    have reached := run_lt_of_trim fun empty => nonempty (List.isEmpty_iff.mpr empty)
    have bounds := segments_bounds cut
    rw [locate_append_left (by omega)]

theorem ofSegment?_append_right {piece : Nat × Bytes} (keeps : KeepsBreaks text behind)
    (cut : piece ∈ segments 0 behind) :
    ofSegment? (text ++ behind) (text.length + piece.1, piece.2) =
      (ofSegment? behind piece).map (·.within text.length (locate (lineStarts text) text.length)) := by
  unfold ofSegment?
  dsimp only
  split
  · rfl
  · rename_i nonempty
    have reached := run_lt_of_trim fun empty => nonempty (List.isEmpty_iff.mpr empty)
    have bounds := segments_bounds cut
    rw [Nat.add_assoc, locate_append_right keeps (by omega), Option.map_some, ofCode_within]

end Statement

/-- Where one more byte would begin a new piece, a text ends in a semicolon that ends a statement. Behind it the
statements are those of what follows, moved as one; those before it are the same whatever follows. -/
theorem parse_append (text : Bytes) (nonempty : text ≠ []) (c : UInt8)
    (cut : text.length ∈ (segments 0 (text ++ [c])).map Prod.fst) (behind : Bytes) :
    text.getLast? = some Byte.semicolon ∧
      Statement.parse (text ++ behind) = Statement.parse text ++
        (Statement.parse behind).map (·.within text.length (locate (lineStarts text) text.length)) := by
  have cut := (cutAtEnd_iff nonempty c).mpr cut
  have keeps := keepsBreaks_of_cutAtEnd cut behind
  refine ⟨getLast?_of_cutAtEnd cut, ?_⟩
  rw [Statement.parse_eq_filterMap, Statement.parse_eq_filterMap, Statement.parse_eq_filterMap,
    segments_append 0 cut, Nat.zero_add, List.filterMap_append, List.map_filterMap]
  congr 1
  · exact List.filterMap_congr fun piece member => Statement.ofSegment?_append_left member behind
  · have moved := segments_add text.length 0 behind
    rw [Nat.add_zero] at moved
    rw [moved, List.filterMap_map]
    exact List.filterMap_congr fun piece member => Statement.ofSegment?_append_right keeps member

/-- The cut stands behind a string and a comment with semicolons in them, and a string is left open behind it. -/
theorem open_text_appended :
    let text : Bytes := ascii "a ';' -- ;\r\n; b;"
    let behind : Bytes := ascii " c;\r'd;"
    text ≠ [] ∧ text.length ∈ (segments 0 (text ++ [Byte.space])).map Prod.fst ∧
      Statement.parse (text ++ behind) = Statement.parse text ++
        [Statement.ofCode (ascii "c;") 17 ⟨1, 5⟩, Statement.ofCode (ascii "'d;") 20 ⟨2, 0⟩] := by
  intro text behind
  have nonempty : text ≠ [] := by decide
  have cut : text.length ∈ (segments 0 (text ++ [Byte.space])).map Prod.fst := by decide +kernel
  refine ⟨nonempty, cut, ?_⟩
  rw [(parse_append text nonempty Byte.space cut behind).2]
  decide +kernel

end QueryService
