import Mathlib.Data.List.Infix
import QueryService.Proofs.Statement.Segmentation
import QueryService.Proofs.Text.Lines
import QueryService.Proofs.Token.Tiling

/-!
# Statements as a partition of a text

The pieces between two cuts lie end to end over a text, and a statement is a piece without the white
space around it. So the statements and the white space between them make up the text, and a statement
knows its place in it to the byte (`parse_partitions`). Nothing is asked of the text: an open string or
comment makes the rest of it one statement.
-/

namespace QueryService
open Lexer

variable {c : UInt8} {text whole : Bytes}

/-! ### Pieces -/

theorem getLast?_take_cons {n : Nat} {c d : UInt8} {rest : Bytes}
    (last : n < rest.length → (rest.take n).getLast? = some d) (goesOn : n + 1 < (c :: rest).length) :
    ((c :: rest).take (n + 1)).getLast? = some d := by
  rw [List.take_succ_cons, List.getLast?_cons, last (Nat.lt_of_succ_lt_succ goesOn)]
  rfl

/-- A statement is cut behind a semicolon, if the text goes on behind it. -/
theorem getLast?_take_statementLength (p : Passage) (text : Bytes) (goesOn : p.statementLength text < text.length) :
    (text.take (p.statementLength text)).getLast? = some Byte.semicolon := by
  fun_induction Passage.statementLength p text with
  | case1 => cases goesOn
  | case2 | case8 => exact absurd goesOn (Nat.lt_irrefl 1)
  | case6 c next rest _ _ _ ends => rw [eq_of_beq ends]; rfl
  -- A backslash, the opening of a comment and the end of a block comment pass two bytes at once.
  | case4 _ _ _ _ _ ih | case5 _ _ _ _ _ _ ih | case9 _ _ _ _ _ ih | case13 _ ih =>
    exact getLast?_take_cons (getLast?_take_cons ih) goesOn
  | case3 _ _ _ _ ih | case7 _ _ _ _ _ _ _ ih | case10 _ _ _ _ _ _ ih | case11 _ _ _ _ _ _ ih | case12 _ _ ih
  | case14 _ _ _ ih => exact getLast?_take_cons ih goesOn

theorem segments_place {start : Nat} {piece : Nat × Bytes} (place : text = whole.drop start)
    (member : piece ∈ segments start text) : piece.2 <+: whole.drop piece.1 := by
  induction text using segmentInduction generalizing start with
  | nil => rw [segments_nil] at member; cases member
  | cons text nonempty ih =>
    rw [segments_cons start nonempty] at member
    rcases List.mem_cons.mp member with rfl | later
    · rw [← place]
      exact List.take_prefix _ _
    · exact ih (by rw [place, List.drop_drop]) later

theorem segments_cover {start i : Nat} (behind : start ≤ i) (inside : i < start + text.length) :
    ∃ piece ∈ segments start text, piece.1 ≤ i ∧ i < piece.1 + piece.2.length := by
  induction text using segmentInduction generalizing start with
  | nil => rw [List.length_nil] at inside; omega
  | cons text nonempty ih =>
    have short := Passage.statementLength_le .code text
    rw [segments_cons start nonempty]
    by_cases here : i < start + Passage.code.statementLength text
    · refine ⟨_, List.mem_cons_self, behind, ?_⟩
      rw [List.length_take, Nat.min_eq_left short]
      exact here
    · obtain ⟨piece, member, around⟩ := ih (Nat.le_of_not_lt here) (by rw [List.length_drop]; omega)
      exact ⟨piece, List.mem_cons_of_mem _ member, around⟩

theorem segments_semicolon {start : Nat} {piece : Nat × Bytes} (member : piece ∈ (segments start text).dropLast) :
    piece.2.getLast? = some Byte.semicolon := by
  induction text using segmentInduction generalizing start with
  | nil => rw [segments_nil] at member; cases member
  | cons text nonempty ih =>
    rw [segments_cons start nonempty] at member
    by_cases goesOn : Passage.code.statementLength text < text.length
    · have more : text.drop (Passage.code.statementLength text) ≠ [] := by
        rw [ne_eq, List.drop_eq_nil_iff]
        omega
      rw [segments_cons _ more, List.dropLast_cons_cons, ← segments_cons _ more] at member
      rcases List.mem_cons.mp member with rfl | later
      · exact getLast?_take_statementLength .code text goesOn
      · exact ih later
    · rw [List.drop_eq_nil_of_le (Nat.le_of_not_lt goesOn), segments_nil] at member
      cases member

theorem exists_mem_dropLast {α β : Type} {f : α → Option β} {items : List α} {y : β}
    (member : y ∈ (items.filterMap f).dropLast) : ∃ x ∈ items.dropLast, f x = some y := by
  rcases List.eq_nil_or_concat' items with rfl | ⟨earlier, final, rfl⟩
  · cases member
  · rw [List.dropLast_concat]
    rw [List.filterMap_append] at member
    apply List.mem_filterMap.mp
    cases made : f final with
    | none =>
      rw [List.filterMap_cons_none made, List.filterMap_nil, List.append_nil] at member
      exact List.dropLast_subset _ member
    | some y' =>
      rw [List.filterMap_cons_some made, List.filterMap_nil, List.dropLast_concat] at member
      exact member

/-! ### Statements -/

namespace Statement

/-- A statement of a text: its code is cut out at its place, without white space around it, all its places
are those of the text, and nothing has validated it. -/
structure CutFrom (text : Bytes) (s : Statement) : Prop where
  inhabited : s.code ≠ []
  code : s.code = text.extract s.start s.stop
  inside : s.stop ≤ text.length
  head : ∀ c, s.code.head? = some c → Byte.isSpace c = false
  final : ∀ c, s.code.getLast? = some c → Byte.isSpace c = false
  first : s.first = locate (lineStarts text) s.start
  last : s.last = locate (lineStarts text) s.stop
  tiles : Tiles text s.start s.stop s.tokens
  values : s.tokens.flatMap (·.value) = s.code
  places : ∀ t ∈ s.tokens, t.position = locate (lineStarts text) t.start
  dirty : s.dirty = true
  unproven : s.valid = false

/-- The last byte of a statement breaks no line, so the place behind it is one column on. -/
theorem last_ofCode {init : Bytes} (inner : Byte.isBreak c = false) (start : Nat) (origin : Position)
    (behind : Bytes) :
    (ofCode (init ++ [c]) start origin).last = origin.advance (init ++ [c]).length (init ++ c :: behind) := by
  have size : (init ++ [c]).length = init.length + 1 := List.length_append
  have nonempty : (init ++ [c]).isEmpty = false := by simp
  have place : init ++ [c] <+: init ++ c :: behind := ⟨behind, List.append_assoc _ _ _⟩
  have final : locate (lineStarts (init ++ [c])) ((init ++ [c]).length - 1) =
      ({} : Position).advance init.length (init ++ c :: behind) := by
    rw [locate_lineStarts (Nat.sub_le _ _), size, Nat.add_sub_cancel, Position.advance_of_prefix _ place (by omega)]
  have next (p : Position) : (⟨p.line, p.column + 1⟩ : Position) = p.step c behind := by
    rw [Position.step, endsLine_inner inner, if_neg Bool.false_ne_true]
  simp only [ofCode, nonempty, final, next]
  rw [if_neg Bool.false_ne_true, Position.step_within, Position.advance_within, Position.within_start, size,
    Position.advance_add, List.drop_left, Position.advance_cons, Position.advance_zero]

theorem cutFrom_ofCode {code : Bytes} {start : Nat} (nonempty : code ≠ []) (place : code <+: text.drop start)
    (head : ∀ c, code.head? = some c → Byte.isSpace c = false)
    (final : ∀ c, code.getLast? = some c → Byte.isSpace c = false) :
    CutFrom text (ofCode code start (locate (lineStarts text) start)) := by
  have positive := List.length_pos_iff.mpr nonempty
  have short := place.length_le
  rw [List.length_drop] at short
  have stop : (ofCode code start (locate (lineStarts text) start)).stop = start + code.length := rfl
  have tokens := ofCode_tokens code start (locate (lineStarts text) start)
  refine
    { inhabited := nonempty, code := ?code, inside := ?inside, head, final, first := rfl, last := ?last,
      tiles := ?tiles, values := ?values, places := ?places, dirty := rfl, unproven := rfl }
  case code =>
    rw [stop, List.extract_eq_take_drop]
    show code = (text.drop start).take (start + code.length - start)
    rw [Nat.add_sub_cancel_left]
    exact List.prefix_iff_eq_take.mp place
  case inside =>
    rw [stop]
    omega
  case last =>
    obtain ⟨init, c, rfl⟩ := (List.eq_nil_or_concat' code).resolve_left nonempty
    have visible := final c List.getLast?_concat
    obtain ⟨behind, split⟩ := place
    rw [List.append_assoc] at split
    rw [last_ofCode (Bool.or_eq_false_iff.mp visible).2 start _ behind, stop, locate_lineStarts (by omega),
      locate_lineStarts (by omega), Position.advance_add, ← split]
    rfl
  case tiles =>
    rw [tokens]
    exact tiles_tokensFrom start _ place
  case values =>
    rw [tokens]
    exact flatMap_value_tokensFrom start _ code
  case places =>
    intro t member
    rw [tokens] at member
    exact position_tokensFrom rfl (by omega) place member

theorem parse_cutFrom {s : Statement} (member : s ∈ parse text) : CutFrom text s := by
  obtain ⟨piece, cut, nonempty, rfl⟩ := exists_segment member
  have place := (segments_place List.drop_zero.symm cut).drop (Bytes.run Byte.isSpace piece.2)
  rw [List.drop_drop] at place
  exact cutFrom_ofCode nonempty ((Bytes.trim_prefix Byte.isSpace piece.2).trans place)
    (fun c => Bytes.trim_head?) fun c => Bytes.trim_getLast?

theorem ofSegment?_of_ne_nil {piece : Nat × Bytes} (nonempty : Bytes.trim Byte.isSpace piece.2 ≠ []) :
    ofSegment? text piece = some (ofCode (Bytes.trim Byte.isSpace piece.2)
      (piece.1 + Bytes.run Byte.isSpace piece.2)
      (locate (lineStarts text) (piece.1 + Bytes.run Byte.isSpace piece.2))) := by
  unfold ofSegment?
  dsimp only
  rw [if_neg (by simpa using nonempty)]

/-- What a piece holds outside of its statement is white space. -/
theorem ofSegment?_space {piece : Nat × Bytes} {j : Nat} (there : piece.2[j]? = some c)
    (outside : ∀ s, ofSegment? text piece = some s → piece.1 + j < s.start ∨ s.stop ≤ piece.1 + j) :
    Byte.isSpace c = true := by
  obtain ⟨behind, split, blank⟩ := Bytes.trim_split Byte.isSpace piece.2
  have lead : (piece.2.take (Bytes.run Byte.isSpace piece.2)).length = Bytes.run Byte.isSpace piece.2 := by
    rw [List.length_take, Nat.min_eq_left ((Settled.run Byte.isSpace).le piece.2)]
  rw [← split, List.getElem?_append, lead] at there
  split at there
  · exact Bytes.mem_take_run (List.mem_of_getElem? there)
  · rename_i past
    rw [List.getElem?_append] at there
    split at there
    · rename_i kept
      have nonempty : Bytes.trim Byte.isSpace piece.2 ≠ [] := List.ne_nil_of_length_pos (by omega)
      have apart := outside _ (ofSegment?_of_ne_nil nonempty)
      simp only [ofCode] at apart
      omega
    · exact blank c (List.mem_of_getElem? there)

end Statement

/-- The statements of a text follow each other in it, each cut out to the byte, with nothing but white
space between them, and only the last one may lack its semicolon. -/
theorem parse_partitions (text : Bytes) :
    ((Statement.parse text).Pairwise fun s later => s.stop ≤ later.start) ∧
    (∀ s ∈ Statement.parse text, s.CutFrom text) ∧
    (∀ i c, text[i]? = some c → (∀ s ∈ Statement.parse text, i < s.start ∨ s.stop ≤ i) → Byte.isSpace c = true) ∧
    ∀ s ∈ (Statement.parse text).dropLast, s.code.getLast? = some Byte.semicolon := by
  refine ⟨Statement.parse_ordered text, fun s => Statement.parse_cutFrom, ?_, ?_⟩
  · intro i c there outside
    obtain ⟨inside, _⟩ := List.getElem?_eq_some_iff.mp there
    rw [← Nat.zero_add text.length] at inside
    obtain ⟨piece, cut, before, behind⟩ := segments_cover (Nat.zero_le i) inside
    obtain ⟨j, rfl⟩ := Nat.exists_eq_add_of_le before
    have here : j < piece.2.length := Nat.lt_of_add_lt_add_left behind
    obtain ⟨later, whole⟩ := segments_place List.drop_zero.symm cut
    rw [← List.getElem?_drop, ← whole, List.getElem?_append_left here] at there
    exact Statement.ofSegment?_space there fun s made => outside s (List.mem_filterMap.mpr ⟨piece, cut, made⟩)
  · intro s member
    rw [Statement.parse_eq_filterMap] at member
    obtain ⟨piece, earlier, made⟩ := exists_mem_dropLast member
    obtain ⟨_, rfl⟩ := Statement.ofSegment?_eq_some made
    exact Bytes.getLast?_trim (segments_semicolon earlier) (by rfl)

/-- Two statements over three sorts of break, the second one an open string to the end of the text. -/
theorem open_text_partitioned :
    let text : Bytes := ascii " a\r\n;\n\r'b;\r "
    let first := Statement.ofCode (ascii "a\r\n;") 1 ⟨0, 1⟩
    let second := Statement.ofCode (ascii "'b;") 7 ⟨3, 0⟩
    Statement.parse text = [first, second] ∧ first.CutFrom text ∧ second.CutFrom text ∧
      first.code.getLast? = some Byte.semicolon := by
  intro text first second
  have parsed : Statement.parse text = [first, second] := by decide +kernel
  obtain ⟨_, cut, _, ended⟩ := parse_partitions text
  rw [parsed] at cut ended
  exact ⟨parsed, cut first (by simp), cut second (by simp), ended first (by simp)⟩

end QueryService
