import QueryService.Proofs.Statement.Trimming

/-!
# Statements and tokens of one text

The statements of a text are cut out of it before it is tokenized, and each is tokenized on its own. As
long as every string is closed, nothing is lost or changed by that: a text is cut at its semicolon tokens,
and its significant tokens are those of its statements.
-/

namespace QueryService
open Lexer

namespace Token

def isSemicolon (t : Token) : Bool := t.kind == .punctuation && t.value == [Byte.semicolon]

end Token

def semicolonStops (tokens : List Token) : List Nat := (tokens.filter Token.isSemicolon).map Token.stop

variable {start n : Nat} {p : Position} {c : UInt8} {rest text : Bytes}

theorem semicolonStops_append (before behind : List Token) :
    semicolonStops (before ++ behind) = semicolonStops before ++ semicolonStops behind := by
  rw [semicolonStops, List.filter_append, List.map_append]
  rfl

theorem semicolonStops_cons (t : Token) (tokens : List Token) :
    semicolonStops (t :: tokens) = if t.isSemicolon then t.stop :: semicolonStops tokens else semicolonStops tokens := by
  rw [semicolonStops, List.filter_cons]
  split <;> rfl

theorem isSemicolon_token (other : c ≠ Byte.semicolon) (kind : TokenKind) (later : Bytes) :
    (token kind (c :: later) start p).isSemicolon = false := by
  have value : ((c :: later) == [Byte.semicolon]) = false := by
    apply beq_false_of_ne
    intro same
    exact other (List.cons.inj same).1
  rw [Token.isSemicolon, show (token kind (c :: later) start p).value = c :: later from rfl, value, Bool.and_false]

theorem statementLength_cons (terminated : Terminated (tokensFrom start p (c :: rest))) :
    Passage.code.statementLength (c :: rest) =
      if c = Byte.semicolon then 1
      else (lexeme c rest).extra + 1 + Passage.code.statementLength (rest.drop (lexeme c rest).extra) :=
  statementLength_token (closes_of_terminated terminated)

theorem boundary_statementLength (terminated : Terminated (tokensFrom start p text)) :
    Boundary (Passage.code.statementLength text) text := by
  induction text using tokenInduction generalizing start p with
  | nil => exact Boundary.start []
  | cons c rest ih =>
    rw [statementLength_cons terminated]
    split
    · rename_i ends
      have step := Boundary.step (c := Byte.semicolon) (Boundary.start (rest.drop (lexeme Byte.semicolon rest).extra))
      rw [lexeme_semicolon] at step
      rwa [ends]
    · exact Boundary.step (ih (terminated_rest terminated))

/-- The only semicolon token of a statement is its last one; only the end of the text can take its place. -/
theorem semicolonStops_statement (terminated : Terminated (tokensFrom start p text)) :
    semicolonStops (tokensFrom start p (text.take (Passage.code.statementLength text))) =
        [start + Passage.code.statementLength text] ∨
      semicolonStops (tokensFrom start p (text.take (Passage.code.statementLength text))) = [] ∧
        Passage.code.statementLength text = text.length := by
  induction text using tokenInduction generalizing start p with
  | nil => exact Or.inr ⟨by rw [List.take_nil, tokensFrom_nil]; rfl, rfl⟩
  | cons c rest ih =>
    rw [statementLength_cons terminated]
    split
    · rename_i ends
      left
      rw [ends, List.take_succ_cons, List.take_zero, tokensFrom_cons, lexeme_semicolon, List.drop_nil, tokensFrom_nil]
      rfl
    · rename_i other
      rw [tokensFrom_take, semicolonStops_cons, isSemicolon_token other, if_neg Bool.false_ne_true,
        ← Nat.add_assoc start ((lexeme c rest).extra + 1) (Passage.statementLength _ _)]
      refine (ih (terminated_rest terminated)).imp_right fun whole => ⟨whole.1, ?_⟩
      have := lexeme_extra_le c rest
      rw [whole.2, List.length_drop, List.length_cons]
      omega

theorem terminated_append {before behind : List Token} (terminated : Terminated (before ++ behind)) :
    Terminated before ∧ Terminated behind :=
  ⟨fun t member => terminated t (List.mem_append_left _ member),
    fun t member => terminated t (List.mem_append_right _ member)⟩

theorem segments_nil (offset : Nat) : segments offset [] = [] := by
  rw [segments]

theorem segments_cons (offset : Nat) (nonempty : text ≠ []) :
    segments offset text =
      (offset, text.take (Passage.code.statementLength text)) ::
        segments (offset + Passage.code.statementLength text) (text.drop (Passage.code.statementLength text)) := by
  cases text with
  | nil => contradiction
  | cons c rest => rw [segments]

theorem segmentInduction {motive : Bytes → Prop} (nil : motive [])
    (cons : ∀ text, text ≠ [] → motive (text.drop (Passage.code.statementLength text)) → motive text)
    (text : Bytes) : motive text := by
  induction length : text.length using Nat.strongRecOn generalizing text with
  | ind size ih =>
    by_cases empty : text = []
    · exact empty ▸ nil
    · have progress := Passage.statementLength_pos .code empty
      have inhabited := List.length_pos_iff.mpr empty
      refine cons text empty (ih _ ?_ _ rfl)
      rw [← length, List.length_drop]
      omega

/-- A text is cut behind its semicolon tokens. A cut at its very end leaves no piece behind it. -/
theorem segments_offsets (terminated : Terminated (tokensFrom start p text)) :
    (segments start text).map Prod.fst =
      (start :: semicolonStops (tokensFrom start p text)).filter (· < start + text.length) := by
  induction text using segmentInduction generalizing start p with
  | nil => simp [segments_nil, tokensFrom_nil, semicolonStops]
  | cons text nonempty ih =>
    have between := boundary_statementLength terminated
    have inside := between.le
    have progress := Passage.statementLength_pos .code nonempty
    have split := tokensFrom_split start p between
    have parts := terminated_append (split ▸ terminated)
    have first := semicolonStops_statement terminated
    have total : start + Passage.code.statementLength text + (text.length - Passage.code.statementLength text) =
        start + text.length := by omega
    have kept (later : List Nat) : (start :: later).filter (· < start + text.length) =
        start :: later.filter (· < start + text.length) := by
      rw [List.filter_cons, if_pos (by simp; omega)]
    rw [segments_cons start nonempty, List.map_cons, ih parts.2, split, semicolonStops_append, List.length_drop,
      total, kept]
    rcases first with cut | ⟨none, whole⟩
    · rw [cut]
      rfl
    · rw [none, whole, List.drop_length, tokensFrom_nil, List.filter_cons, if_neg (by simp)]
      rfl

namespace Statement

/-- The statement of a piece of a text, unless the piece is blank. -/
def ofSegment? (text : Bytes) (piece : Nat × Bytes) : Option Statement :=
  let code := Bytes.trim Byte.isSpace piece.2
  let start := piece.1 + Bytes.run Byte.isSpace piece.2
  if code.isEmpty then none else some (ofCode code start (locate (lineStarts text) start))

theorem parse_eq_filterMap (text : Bytes) : parse text = (segments 0 text).filterMap (ofSegment? text) := rfl

theorem ofCode_tokens (code : Bytes) (start : Nat) (origin : Position) :
    (ofCode code start origin).tokens = tokensFrom start origin code := by
  show (tokenize code).map (·.within start origin) = _
  rw [tokenize, tokensFrom_within, Nat.add_zero, Position.within_start]

theorem ofSegment?_eq_some {piece : Nat × Bytes} {s : Statement} (made : ofSegment? text piece = some s) :
    Bytes.trim Byte.isSpace piece.2 ≠ [] ∧
      s = ofCode (Bytes.trim Byte.isSpace piece.2) (piece.1 + Bytes.run Byte.isSpace piece.2)
        (locate (lineStarts text) (piece.1 + Bytes.run Byte.isSpace piece.2)) := by
  unfold ofSegment? at made
  dsimp only at made
  split at made
  · cases made
  · rename_i nonempty
    refine ⟨fun empty => nonempty (by rw [empty]; rfl), (Option.some.inj made).symm⟩

theorem exists_segment {s : Statement} (member : s ∈ parse text) :
    ∃ piece ∈ segments 0 text, Bytes.trim Byte.isSpace piece.2 ≠ [] ∧
      s = ofCode (Bytes.trim Byte.isSpace piece.2) (piece.1 + Bytes.run Byte.isSpace piece.2)
        (locate (lineStarts text) (piece.1 + Bytes.run Byte.isSpace piece.2)) := by
  rw [parse_eq_filterMap] at member
  obtain ⟨piece, cut, made⟩ := List.mem_filterMap.mp member
  exact ⟨piece, cut, ofSegment?_eq_some made⟩

theorem ofSegment?_bounds {piece : Nat × Bytes} {s : Statement} (made : ofSegment? text piece = some s) :
    piece.1 ≤ s.start ∧ s.start < s.stop ∧ s.stop ≤ piece.1 + piece.2.length := by
  obtain ⟨nonempty, rfl⟩ := ofSegment?_eq_some made
  have positive := List.length_pos_iff.mpr nonempty
  have kept := (Bytes.trim_prefix Byte.isSpace piece.2).length_le
  rw [List.length_drop] at kept
  simp only [ofCode]
  omega

theorem segments_bounds {start : Nat} {piece : Nat × Bytes} (member : piece ∈ segments start text) :
    start ≤ piece.1 ∧ piece.1 + piece.2.length ≤ start + text.length := by
  induction text using segmentInduction generalizing start with
  | nil => rw [segments_nil] at member; cases member
  | cons text nonempty ih =>
    rw [segments_cons start nonempty] at member
    rcases List.mem_cons.mp member with rfl | later
    · rw [List.length_take]
      omega
    · have bounds := ih later
      have short := Passage.statementLength_le .code text
      rw [List.length_drop] at bounds
      omega

theorem segments_ordered (start : Nat) (text : Bytes) :
    (segments start text).Pairwise fun piece later => piece.1 + piece.2.length ≤ later.1 := by
  induction text using segmentInduction generalizing start with
  | nil => rw [segments_nil]; exact List.Pairwise.nil
  | cons text nonempty ih =>
    rw [segments_cons start nonempty]
    refine List.pairwise_cons.mpr ⟨?_, ih _⟩
    intro later member
    have bounds := segments_bounds member
    rw [List.length_take]
    omega

theorem parse_ordered (text : Bytes) : (parse text).Pairwise fun s later => s.stop ≤ later.start := by
  rw [parse_eq_filterMap, List.pairwise_filterMap]
  refine (segments_ordered 0 text).imp ?_
  intro piece later apart s made s' made'
  have bounds := ofSegment?_bounds made
  have bounds' := ofSegment?_bounds made'
  omega

theorem parse_tokens {s : Statement} (member : s ∈ parse text) :
    s.tokens = (tokenize s.code).map (·.within s.start s.first) ∧ s.dirty = true := by
  obtain ⟨piece, _, _, rfl⟩ := exists_segment member
  exact ⟨rfl, rfl⟩

theorem token_bounds {s : Statement} {t : Token} (member : s ∈ parse text) (inside : t ∈ s.tokens) :
    s.start ≤ t.start ∧ t.start < t.stop ∧ t.stop ≤ s.stop := by
  obtain ⟨piece, _, _, rfl⟩ := exists_segment member
  rw [ofCode_tokens] at inside
  exact tokensFrom_bounds inside

/-- Trimming a piece and tokenizing it on its own loses nothing and moves nothing. -/
theorem significant_segment (text : Bytes) (piece : Nat × Bytes)
    (terminated : Terminated (tokensFrom piece.1 p piece.2))
    (place : ∀ n < piece.2.length, locate (lineStarts text) (piece.1 + n) = p.advance n piece.2) :
    significantTokens (tokensFrom piece.1 p piece.2) =
      (ofSegment? text piece).toList.flatMap fun s => significantTokens s.tokens := by
  rw [significant_trim piece.1 p terminated]
  cases made : ofSegment? text piece with
  | none =>
    unfold ofSegment? at made
    dsimp only at made
    split at made
    · rename_i empty
      rw [List.isEmpty_iff.mp empty, tokensFrom_nil]
      rfl
    · cases made
  | some s =>
    obtain ⟨nonempty, rfl⟩ := ofSegment?_eq_some made
    have bounds := ofSegment?_bounds made
    rw [Option.toList_some, List.flatMap_singleton, ofCode_tokens, place]
    simp only [ofCode] at bounds
    omega

theorem significant_segments (whole : Bytes) (start : Nat) (inside : start ≤ whole.length)
    (place : text = whole.drop start)
    (terminated : Terminated (tokensFrom start (({} : Position).advance start whole) text)) :
    significantTokens (tokensFrom start (({} : Position).advance start whole) text) =
      ((segments start text).filterMap (ofSegment? whole)).flatMap fun s => significantTokens s.tokens := by
  induction text using segmentInduction generalizing start with
  | nil => rw [tokensFrom_nil, segments_nil]; rfl
  | cons text nonempty ih =>
    have between := boundary_statementLength terminated
    have split := tokensFrom_split start (({} : Position).advance start whole) between
    have parts := terminated_append (split ▸ terminated)
    have forward : (({} : Position).advance start whole).advance (Passage.code.statementLength text) text =
        ({} : Position).advance (start + Passage.code.statementLength text) whole := by
      rw [Position.advance_add, place]
    have short := between.le
    have size : text.length = whole.length - start := by rw [place, List.length_drop]
    rw [forward] at split parts
    have first := significant_segment whole (start, text.take (Passage.code.statementLength text))
      parts.1 (by
        intro n reached
        rw [List.length_take] at reached
        rw [locate_lineStarts (by omega), Position.advance_add, Position.advance_take _ _ (by omega), place])
    rw [segments_cons start nonempty, split, significant_append, first,
      ih (start + Passage.code.statementLength text) (by omega) (by rw [place, List.drop_drop]) parts.2, List.filterMap_cons]
    cases ofSegment? whole (start, text.take (Passage.code.statementLength text)) with
    | none => rfl
    | some s => rw [Option.toList_some, List.flatMap_singleton, List.flatMap_cons]

/-- The significant tokens of a text are those of its statements, one statement after the other. -/
theorem significant_flatMap (text : Bytes) (terminated : Terminated (tokenize text)) :
    significantTokens (tokenize text) = (parse text).flatMap fun s => significantTokens s.tokens := by
  have all := significant_segments text 0 (Nat.zero_le _) rfl
  rw [Position.advance_zero] at all
  exact all terminated

end Statement

section Apart

variable {α β : Type} {items : List α} {parts : α → List β} {inside : α → β → Bool}

/-- Each item holds its own parts and none of another item. -/
structure Apart (items : List α) (parts : α → List β) (inside : α → β → Bool) : Prop where
  own : ∀ x ∈ items, ∀ y ∈ parts x, inside x y = true
  other : items.Pairwise fun x x' => (∀ y ∈ parts x', inside x y = false) ∧ ∀ y ∈ parts x, inside x' y = false

theorem Apart.tail {x : α} (apart : Apart (x :: items) parts inside) : Apart items parts inside :=
  ⟨fun x' member => apart.own x' (List.mem_cons_of_mem x member), (List.pairwise_cons.mp apart.other).2⟩

theorem Apart.filter {x : α} (apart : Apart items parts inside) (member : x ∈ items) :
    (items.flatMap parts).filter (inside x) = parts x := by
  induction items with
  | nil => cases member
  | cons head items ih =>
    obtain ⟨across, _⟩ := List.pairwise_cons.mp apart.other
    rw [List.flatMap_cons, List.filter_append]
    rcases List.mem_cons.mp member with rfl | later
    · have outside : (items.flatMap parts).filter (inside x) = [] := by
        rw [List.filter_eq_nil_iff]
        intro y found
        obtain ⟨x', member', part⟩ := List.mem_flatMap.mp found
        exact Bool.eq_false_iff.mp ((across x' member').1 y part)
      rw [outside, List.append_nil, List.filter_eq_self]
      exact apart.own x List.mem_cons_self
    · have outside : (parts head).filter (inside x) = [] := by
        rw [List.filter_eq_nil_iff]
        exact fun y part => Bool.eq_false_iff.mp ((across x later).2 y part)
      rw [outside, List.nil_append, ih apart.tail later]

theorem Apart.countP {y : β} (apart : Apart items parts inside) (member : y ∈ items.flatMap parts) :
    items.countP (inside · y) = 1 := by
  induction items with
  | nil => cases member
  | cons head items ih =>
    obtain ⟨across, _⟩ := List.pairwise_cons.mp apart.other
    rw [List.flatMap_cons] at member
    rcases List.mem_append.mp member with part | later
    · have outside : items.countP (inside · y) = 0 := by
        rw [List.countP_eq_zero]
        exact fun x' member' => Bool.eq_false_iff.mp ((across x' member').2 y part)
      rw [List.countP_cons, outside, if_pos (apart.own head List.mem_cons_self y part)]
    · obtain ⟨x', member', part⟩ := List.mem_flatMap.mp later
      rw [List.countP_cons, ih apart.tail later, if_neg (Bool.eq_false_iff.mp ((across x' member').1 y part))]

end Apart

theorem apart_of_bounds (text : Bytes) (inside : Statement → Token → Bool)
    (own : ∀ s t, s.start ≤ t.start → t.start < t.stop → t.stop ≤ s.stop → inside s t = true)
    (overlap : ∀ s t, t.start < t.stop → inside s t = true → s.start < t.stop ∧ t.start < s.stop) :
    Apart (Statement.parse text) (fun s => significantTokens s.tokens) inside where
  own s member t found := by
    obtain ⟨first, size, last⟩ := Statement.token_bounds member (List.mem_filter.mp found).1
    exact own s t first size last
  other := by
    refine (Statement.parse_ordered text).imp_of_mem ?_
    intro s later member member' ordered
    refine ⟨fun t found => ?_, fun t found => ?_⟩ <;> rw [Bool.eq_false_iff] <;> intro holds
    · have bounds := Statement.token_bounds member' (List.mem_filter.mp found).1
      have := overlap s t bounds.2.1 holds
      omega
    · have bounds := Statement.token_bounds member (List.mem_filter.mp found).1
      have := overlap later t bounds.2.1 holds
      omega

/-- As long as no string is left open, statements and tokens agree: each significant token lies in one
statement, each statement has the significant tokens that begin in it, and the text is cut at its
semicolon tokens. -/
theorem statements_hold_tokens (text : Bytes) (terminated : Terminated (tokenize text)) :
    (∀ t ∈ significantTokens (tokenize text),
      (Statement.parse text).countP (fun s => s.start ≤ t.start ∧ t.stop ≤ s.stop) = 1) ∧
    (∀ s ∈ Statement.parse text,
      significantTokens s.tokens =
        (significantTokens (tokenize text)).filter fun t => s.start ≤ t.start ∧ t.start < s.stop) ∧
    (segments 0 text).map Prod.fst =
      (0 :: semicolonStops (tokenize text)).filter (· < text.length) := by
  have all := Statement.significant_flatMap text terminated
  refine ⟨?_, ?_, ?_⟩
  · intro t found
    rw [all] at found
    have apart := apart_of_bounds text (fun s t => s.start ≤ t.start ∧ t.stop ≤ s.stop)
      (fun s t first _ last => decide_eq_true ⟨first, last⟩) (fun s t size holds => by
        have := of_decide_eq_true holds
        omega)
    exact apart.countP found
  · intro s member
    rw [all]
    have apart := apart_of_bounds text (fun s t => s.start ≤ t.start ∧ t.start < s.stop)
      (fun s t first size last => decide_eq_true ⟨first, by omega⟩) (fun s t size holds => by
        have := of_decide_eq_true holds
        omega)
    exact (apart.filter member).symm
  · have offsets := segments_offsets terminated
    rwa [Nat.zero_add] at offsets

/-- Semicolons in a string and in comments cut nothing. -/
theorem quoted_semicolons_hold :
    let text := ascii "a ; 'b;c' /* ; */ -- ;\n ;d"
    Terminated (tokenize text) ∧
      (∀ t ∈ significantTokens (tokenize text),
        (Statement.parse text).countP (fun s => s.start ≤ t.start ∧ t.stop ≤ s.stop) = 1) ∧
      (∀ s ∈ Statement.parse text,
        significantTokens s.tokens =
          (significantTokens (tokenize text)).filter fun t => s.start ≤ t.start ∧ t.start < s.stop) ∧
      (segments 0 text).map Prod.fst = (0 :: semicolonStops (tokenize text)).filter (· < text.length) := by
  intro text
  have terminated : Terminated (tokenize text) := by
    unfold Terminated
    decide +kernel
  exact ⟨terminated, statements_hold_tokens text terminated⟩

end QueryService
