import QueryService.Proofs.Statement.Locality

/-!
# Statements on their own

A statement is found by a search that starts in the white space before it and may look at what comes
behind it. None of that matters: a search reads any part of what it reads to the end
(`statementLength_take`), so the code of a statement is one statement again, and the same one but for its
place (`statement_reread`).
-/

namespace QueryService

variable {text : Bytes}

/-! ### Parts of what a search reads -/

namespace Passage

variable {p q : Passage} {rest : Bytes} {k : Nat}

theorem statementLength_nil (p : Passage) : p.statementLength [] = 0 := by
  cases p <;> rfl

theorem statementLength_singleton (p : Passage) (c : UInt8) : p.statementLength [c] = 1 := by
  cases p with
  | code | string => rfl
  | lineComment => rw [statementLength, statementLength_nil]
  | blockComment => simp [statementLength]

theorem statementLength_take_cons (p : Passage) (c : UInt8) (rest : Bytes) (inside : k ≤ 1) :
    p.statementLength ((c :: rest).take k) = k := by
  obtain rfl | rfl := Nat.le_one_iff_eq_zero_or_eq_one.mp inside
  · exact statementLength_nil p
  · exact statementLength_singleton p c

/-- A search that reads one or two bytes and goes on in another passage reads parts as that one does. -/
theorem statementLength_take_append (lead : Bytes) (few : lead.length ≤ 2)
    (reads : ∀ j, p.statementLength (lead ++ rest.take j) = q.statementLength (rest.take j) + lead.length)
    (later : ∀ {j}, j ≤ q.statementLength rest → q.statementLength (rest.take j) = j)
    (inside : k ≤ q.statementLength rest + lead.length) : p.statementLength ((lead ++ rest).take k) = k := by
  rcases Nat.lt_or_ge k lead.length with part | whole
  · rw [List.take_append_of_le_length (Nat.le_of_lt part)]
    cases lead with
    | nil => cases part
    | cons c lead => exact statementLength_take_cons p c lead (by omega)
  · obtain ⟨j, rfl⟩ := Nat.exists_eq_add_of_le whole
    rw [List.take_length_add_append, reads, later (by omega), Nat.add_comm]

/-- The search in any part of what a search reads goes to its end. -/
theorem statementLength_take (p : Passage) (inside : k ≤ p.statementLength text) :
    p.statementLength (text.take k) = k := by
  fun_induction statementLength p text generalizing k with
  | case1 p => rw [List.take_nil, statementLength_nil, Nat.le_zero.mp inside]
  | case2 c => exact statementLength_take_cons .code c [] inside
  | case3 c next rest quote ih =>
    exact statementLength_take_append [c] (by simp)
      (fun j => by cases j <;> simp [statementLength, quote]) ih inside
  | case4 c next rest quote line ih =>
    exact statementLength_take_append [c, next] (by simp)
      (fun j => by simp [statementLength, quote, line]) ih inside
  | case5 c next rest quote line block ih =>
    exact statementLength_take_append [c, next] (by simp)
      (fun j => by simp [statementLength, quote, line, block]) ih inside
  | case6 c next rest => exact statementLength_take_cons .code c (next :: rest) inside
  | case7 c next rest quote line block other ih =>
    exact statementLength_take_append [c] (by simp)
      (fun j => by cases j <;> simp [statementLength, quote, line, block, other]) ih inside
  | case8 quote c => exact statementLength_take_cons (.string quote) c [] inside
  | case9 quote c next rest escape ih =>
    exact statementLength_take_append [c, next] (by simp)
      (fun j => by simp [statementLength, escape]) ih inside
  | case10 quote c next rest whole closing ih =>
    exact statementLength_take_append [c] (by simp)
      (fun j => by cases j <;> simp [statementLength, whole, closing]) ih inside
  | case11 quote c next rest whole other ih =>
    exact statementLength_take_append [c] (by simp)
      (fun j => by cases j <;> simp [statementLength, whole, other]) ih inside
  | case12 c rest ih =>
    exact statementLength_take_append [c] (by simp) (fun j => by simp [statementLength]) ih inside
  | case13 rest ih =>
    exact statementLength_take_append [Byte.star, Byte.slash] (by simp) (fun j => rfl) ih inside
  | case14 c rest unended ih =>
    refine statementLength_take_append [c] (by simp) (fun j => ?_) ih inside
    rw [List.singleton_append, statementLength]
    · rfl
    -- Where what follows a star does not begin with a slash, no part of it does.
    · intro later star slash
      cases rest with
      | nil => rw [List.take_nil] at slash; cases slash
      | cons d rest =>
        cases j with
        | zero => cases slash
        | succ j => exact unended rest star (by rw [(List.cons.inj slash).1])

end Passage

/-! ### Texts that are one statement -/

theorem statementLength_segment {start : Nat} {piece : Nat × Bytes} (member : piece ∈ segments start text) :
    Passage.code.statementLength piece.2 = piece.2.length := by
  induction text using segmentInduction generalizing start with
  | nil => rw [segments_nil] at member; cases member
  | cons text nonempty ih =>
    rw [segments_cons start nonempty] at member
    rcases List.mem_cons.mp member with rfl | later
    · rw [Passage.statementLength_take .code (Nat.le_refl _), List.length_take,
        Nat.min_eq_left (Passage.statementLength_le .code text)]
    · exact ih later

/-- White space before a statement is code, so the search inside of it is not in a string or a comment. -/
theorem statementLength_trim (whole : Passage.code.statementLength text = text.length) :
    Passage.code.statementLength (Bytes.trim Byte.isSpace text) = (Bytes.trim Byte.isSpace text).length := by
  have kept := Bytes.trim_prefix Byte.isSpace text
  have passed := (stretch_spaces ((Settled.run Byte.isSpace).le text) fun c => Bytes.mem_take_run).passed
  have short := kept.length_le
  rw [List.length_drop] at short
  rw [List.prefix_iff_eq_take.mp kept, Passage.statementLength_take .code (by omega), List.length_take,
    List.length_drop, Nat.min_eq_left short]

namespace Position

/-- The place `p` of a text, counted from a place `origin` before it. -/
def since (p origin : Position) : Position :=
  if p.line = origin.line then ⟨0, p.column - origin.column⟩ else ⟨p.line - origin.line, p.column⟩

@[simp] theorem since_within (p origin : Position) : (p.within origin).since origin = p := by
  obtain ⟨line, column⟩ := p
  cases line <;> simp [since, within]

end Position

/-- A token of a text, moved to where it is if the text begins at `origin`, `offset` bytes in. -/
def Token.since (t : Token) (offset : Nat) (origin : Position) : Token :=
  { t with start := t.start - offset, stop := t.stop - offset, position := t.position.since origin }

@[simp] theorem Token.since_within (t : Token) (offset : Nat) (origin : Position) :
    (t.within offset origin).since offset origin = t := by
  simp [Token.since, Token.within]

namespace Statement

theorem ofCode_zero_tokens (code : Bytes) : (ofCode code 0 {}).tokens = tokenize code :=
  ofCode_tokens code 0 {}

theorem parse_singleton (nonempty : text ≠ []) (whole : Passage.code.statementLength text = text.length)
    (head : ∀ c, text.head? = some c → Byte.isSpace c = false)
    (final : ∀ c, text.getLast? = some c → Byte.isSpace c = false) : parse text = [ofCode text 0 {}] := by
  have kept := Bytes.trim_eq_self head final
  have made : ofSegment? text (0, text) = some (ofCode text 0 {}) := by
    rw [ofSegment?_of_ne_nil (by rwa [kept]), kept, Bytes.run_eq_zero head, locate_lineStarts (Nat.zero_le _),
      Position.advance_zero]
  rw [parse_eq_filterMap, segments_cons 0 nonempty, whole, List.take_length, List.drop_length, segments_nil,
    List.filterMap_cons_some made, List.filterMap_nil]

theorem eq_ofCode {s : Statement} (member : s ∈ parse text) : s = ofCode s.code s.start s.first := by
  obtain ⟨piece, cut, nonempty, rfl⟩ := exists_segment member
  rfl

theorem parse_code {s : Statement} (member : s ∈ parse text) : parse s.code = [ofCode s.code 0 {}] := by
  obtain ⟨piece, cut, nonempty, rfl⟩ := exists_segment member
  exact parse_singleton nonempty (statementLength_trim (statementLength_segment cut)) (fun c => Bytes.trim_head?)
    fun c => Bytes.trim_getLast?

end Statement

/-- The code of a statement is one statement, the same one moved to the start of a text. Wherever else that
code is a statement, it is this one moved there. -/
theorem statement_reread (text : Bytes) (s : Statement) (member : s ∈ Statement.parse text) :
    ∃ alone, Statement.parse s.code = [alone] ∧ alone.code = s.code ∧ alone.start = 0 ∧
      alone.first = ⟨0, 0⟩ ∧ alone.tokens = s.tokens.map (·.since s.start s.first) ∧
      ∀ other, ∀ s' ∈ Statement.parse other, s'.code = s.code → s' = alone.within s'.start s'.first := by
  refine ⟨.ofCode s.code 0 {}, Statement.parse_code member, rfl, rfl, rfl, ?_, ?_⟩
  · rw [Statement.ofCode_zero_tokens, (Statement.parse_tokens member).1, List.map_map]
    simp [Function.comp_def]
  · intro other s' member' same
    rw [Statement.ofCode_within, Position.within_start, Nat.add_zero, ← same]
    exact Statement.eq_ofCode member'

/-- The statement begins behind white space, goes on behind a comment and ends in a string left open, behind
which blanks were taken off. -/
theorem open_string_reread :
    let text : Bytes := ascii "a;\n b -- c;\r\n 'd\\  "
    let s := Statement.ofCode (ascii "b -- c;\r\n 'd\\") 4 ⟨1, 1⟩
    s ∈ Statement.parse text ∧ ∃ alone, Statement.parse s.code = [alone] ∧ alone.code = s.code ∧
      alone.tokens = s.tokens.map (·.since s.start s.first) ∧ s = alone.within 4 ⟨1, 1⟩ := by
  intro text s
  have member : s ∈ Statement.parse text := by decide +kernel
  obtain ⟨alone, parsed, code, _, _, tokens, same⟩ := statement_reread text s member
  exact ⟨member, alone, parsed, code, tokens, same text s member rfl⟩

end QueryService
