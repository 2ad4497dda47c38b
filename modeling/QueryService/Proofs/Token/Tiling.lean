import Mathlib.Data.List.Chain
import QueryService.Proofs.Token.Boundary

/-!
# Tokens as tiles of a text

Each token is cut out of the text at a boundary (`mem_tokensFrom`) and begins where the one before it
ends. So the tokens of a text tile it (`tokenize_tiles`), and tokenizing may stop at the edge of a tile
and start again behind it (`tokenize_restarts`).
-/

namespace QueryService

/-- The tokens lie end to end over the bytes of a text from `start` up to `stop`, and each has the bytes
of its place for its value. -/
structure Tiles (text : Bytes) (start stop : Nat) (tokens : List Token) : Prop where
  empty : tokens = [] ↔ start = stop
  first : ∀ t ∈ tokens.head?, t.start = start
  adjacent : tokens.IsChain fun t next => next.start = t.stop
  last : ∀ t ∈ tokens.getLast?, t.stop = stop
  inhabited : ∀ t ∈ tokens, t.value ≠ []
  value : ∀ t ∈ tokens, t.value = text.extract t.start t.stop

namespace Lexer

variable {start : Nat} {p : Position} {text whole : Bytes} {t : Token}

/-- Each token begins at a boundary of the text and is the one that the bytes ahead of it give. -/
theorem mem_tokensFrom (member : t ∈ tokensFrom start p text) :
    ∃ n c rest, Boundary n text ∧ text.drop n = c :: rest ∧
      t = token (lexeme c rest).kind (c :: rest.take (lexeme c rest).extra) (start + n) (p.advance n text) := by
  induction text using tokenInduction generalizing start p with
  | nil => rw [tokensFrom_nil] at member; cases member
  | cons c rest ih =>
    rw [tokensFrom_cons] at member
    rcases List.mem_cons.mp member with rfl | later
    · exact ⟨0, c, rest, Boundary.start _, rfl, by rw [Nat.add_zero, Position.advance_zero]⟩
    · obtain ⟨n, d, behind, between, ahead, same⟩ := ih later
      refine ⟨(lexeme c rest).extra + 1 + n, d, behind, Boundary.step between, ?_, ?_⟩
      · rw [drop_cons_add, ahead]
      · rw [same, Nat.add_assoc start, Position.advance_add p ((lexeme c rest).extra + 1), List.drop_succ_cons]

theorem length_value (c : UInt8) (rest : Bytes) :
    (c :: rest.take (lexeme c rest).extra).length = (lexeme c rest).extra + 1 := by
  rw [List.length_cons, List.length_take, Nat.min_eq_left (lexeme_extra_le c rest)]

theorem start_token (kind : TokenKind) (value : Bytes) (start : Nat) (p : Position) :
    (token kind value start p).start = start := rfl

theorem stop_token (c : UInt8) (rest : Bytes) (kind : TokenKind) (start : Nat) (p : Position) :
    (token kind (c :: rest.take (lexeme c rest).extra) start p).stop = start + ((lexeme c rest).extra + 1) := by
  rw [token, length_value]

theorem tokensFrom_head? (found : t ∈ (tokensFrom start p text).head?) : t.start = start := by
  cases text with
  | nil => rw [tokensFrom_nil] at found; cases found
  | cons c rest =>
    rw [tokensFrom_cons] at found
    obtain rfl := Option.some.inj found
    rfl

theorem tokensFrom_isChain (start : Nat) (p : Position) (text : Bytes) :
    (tokensFrom start p text).IsChain fun t next => next.start = t.stop := by
  induction text using tokenInduction generalizing start p with
  | nil => rw [tokensFrom_nil]; exact List.IsChain.nil
  | cons c rest ih =>
    rw [tokensFrom_cons, List.isChain_cons]
    refine ⟨fun next found => ?_, ih _ _⟩
    rw [tokensFrom_head? found, stop_token]

theorem tokensFrom_getLast? (found : t ∈ (tokensFrom start p text).getLast?) : t.stop = start + text.length := by
  induction text using tokenInduction generalizing start p t with
  | nil => rw [tokensFrom_nil] at found; cases found
  | cons c rest ih =>
    have inside := lexeme_extra_le c rest
    have size := List.length_drop (i := (lexeme c rest).extra) (l := rest)
    rw [tokensFrom_cons, List.getLast?_cons] at found
    obtain rfl := Option.some.inj found
    rw [List.length_cons]
    -- The last token is this one only if it takes all that is left.
    cases behind : rest.drop (lexeme c rest).extra with
    | nil =>
      rw [behind, List.length_nil] at size
      rw [tokensFrom_nil, List.getLast?_nil, Option.getD_none, stop_token]
      omega
    | cons d later =>
      obtain ⟨final, found⟩ : ∃ final, (tokensFrom (start + ((lexeme c rest).extra + 1))
          (p.advance ((lexeme c rest).extra + 1) (c :: rest)) (d :: later)).getLast? = some final := by
        rw [tokensFrom_cons, List.getLast?_cons]
        exact ⟨_, rfl⟩
      rw [behind] at ih size
      rw [found, Option.getD_some, ih found]
      omega

theorem tokensFrom_ordered (start : Nat) (p : Position) (text : Bytes) :
    (tokensFrom start p text).Pairwise fun t later => t.stop ≤ later.start := by
  induction text using tokenInduction generalizing start p with
  | nil => rw [tokensFrom_nil]; exact List.Pairwise.nil
  | cons c rest ih =>
    rw [tokensFrom_cons, List.pairwise_cons]
    refine ⟨fun later member => ?_, ih _ _⟩
    rw [stop_token]
    exact (tokensFrom_bounds member).1

theorem flatMap_value_tokensFrom (start : Nat) (p : Position) (text : Bytes) :
    (tokensFrom start p text).flatMap (·.value) = text := by
  induction text using tokenInduction generalizing start p with
  | nil => rw [tokensFrom_nil]; rfl
  | cons c rest ih =>
    rw [tokensFrom_cons, List.flatMap_cons, ih]
    show c :: rest.take (lexeme c rest).extra ++ rest.drop (lexeme c rest).extra = c :: rest
    rw [List.cons_append, List.take_append_drop]

/-- A passage of a text, tokenized at its place, is tiled by its tokens. -/
theorem tiles_tokensFrom (start : Nat) (p : Position) (place : text <+: whole.drop start) :
    Tiles whole start (start + text.length) (tokensFrom start p text) where
  empty := by
    cases text with
    | nil => simp [tokensFrom_nil]
    | cons c rest => simp [tokensFrom_cons]
  first t found := tokensFrom_head? found
  adjacent := tokensFrom_isChain start p text
  last t found := tokensFrom_getLast? found
  inhabited t member := by
    obtain ⟨n, c, rest, _, _, rfl⟩ := mem_tokensFrom member
    exact List.cons_ne_nil _ _
  value t member := by
    obtain ⟨n, c, rest, between, ahead, rfl⟩ := mem_tokensFrom member
    obtain ⟨behind, split⟩ := place
    have reach : whole.drop (start + n) = c :: (rest ++ behind) := by
      have short := between.le
      rw [← List.drop_drop, ← split, List.drop_append_of_le_length short, ahead, List.cons_append]
    have inside := lexeme_extra_le c rest
    simp only [token, List.extract_eq_take_drop, length_value, reach, Nat.add_sub_cancel_left, List.take_succ_cons,
      List.take_append_of_le_length inside]

theorem position_tokensFrom (origin : p = locate (lineStarts whole) start) (reach : start ≤ whole.length)
    (place : text <+: whole.drop start) (member : t ∈ tokensFrom start p text) :
    t.position = locate (lineStarts whole) t.start := by
  obtain ⟨n, c, rest, _, ahead, rfl⟩ := mem_tokensFrom member
  have inside : n < text.length := by
    by_contra beyond
    rw [List.drop_eq_nil_of_le (Nat.le_of_not_lt beyond)] at ahead
    cases ahead
  have short := place.length_le
  rw [List.length_drop] at short
  rw [start_token, locate_lineStarts (by omega), Position.advance_add, ← Position.advance_of_prefix _ place inside,
    ← locate_lineStarts reach, ← origin]
  rfl

theorem token_keyword (c : UInt8) (rest value : Bytes) (start : Nat) (p : Position) :
    ((token (lexeme c rest).kind value start p).keyword.isSome ↔
      (token (lexeme c rest).kind value start p).kind = .keyword) ∧
      ((token (lexeme c rest).kind value start p).kind = .keyword →
        (token (lexeme c rest).kind value start p).keyword = Keyword.lookup value) := by
  have plain := lexeme_ne_keyword c rest
  generalize (lexeme c rest).kind = kind at plain
  unfold token
  dsimp only
  by_cases word : kind = .identifier
  · rw [if_pos word]
    cases Keyword.lookup value <;> simp [plain]
  · rw [if_neg word]
    simp [plain]

end Lexer

/-- Where a token of a text stands in it. -/
theorem token_place {text : Bytes} {t : Token} (member : t ∈ tokenize text) :
    t.value <+: text.drop t.start ∧ t.stop = t.start + t.value.length ∧
      t.position = ({} : Position).advance t.start text := by
  obtain ⟨n, c, rest, _, ahead, rfl⟩ := Lexer.mem_tokensFrom member
  rw [Lexer.start_token, Nat.zero_add]
  refine ⟨?_, rfl, rfl⟩
  rw [ahead]
  exact List.cons_prefix_cons.mpr ⟨rfl, List.take_prefix _ _⟩

/-- The tokens of a text tile it, and just the keyword tokens carry the keyword that they spell. -/
theorem tokenize_tiles (text : Bytes) :
    Tiles text 0 text.length (tokenize text) ∧
      ∀ t ∈ tokenize text, (t.keyword.isSome ↔ t.kind = .keyword) ∧
        (t.kind = .keyword → t.keyword = Keyword.lookup t.value) := by
  constructor
  · have tiles : Tiles text 0 (0 + text.length) (Lexer.tokensFrom 0 {} text) :=
      Lexer.tiles_tokensFrom 0 {} (List.prefix_refl text)
    rwa [Nat.zero_add] at tiles
  · intro t member
    obtain ⟨n, c, rest, _, _, rfl⟩ := Lexer.mem_tokensFrom member
    exact Lexer.token_keyword c rest _ _ _

/-- Bytes that are no text are tiled as well: a NUL, half of a character, a number without its exponent
and a string without its end. -/
theorem ragged_bytes_tiled :
    let text : Bytes := [0x00, 0xC3, 0x28, 0x31, 0x65, 0x0D, 0x0A, 0x6F, 0x6E, 0x27, 0x5C]
    let word := Lexer.token .identifier (ascii "on") 7 ⟨1, 0⟩
    Tiles text 0 text.length (tokenize text) ∧ word ∈ tokenize text ∧ word.kind = .keyword ∧
      word.keyword = Keyword.lookup (ascii "on") := by
  intro text word
  obtain ⟨tiles, keywords⟩ := tokenize_tiles text
  have member : word ∈ tokenize text := by decide +kernel
  have kind : word.kind = .keyword := by decide +kernel
  exact ⟨tiles, member, kind, (keywords word member).2 kind⟩

namespace Lexer

theorem boundary_of_edge {p : Nat} {text : Bytes}
    (edge : p = 0 ∨ p = text.length ∨ ∃ t ∈ tokenize text, t.start = p) : Boundary p text := by
  rcases edge with rfl | rfl | ⟨t, member, rfl⟩
  · exact Boundary.start text
  · exact Boundary.length text
  · obtain ⟨n, c, rest, between, _, rfl⟩ := mem_tokensFrom member
    rw [start_token, Nat.zero_add]
    exact between

end Lexer

/-- At the edge of a token a text can be cut: its tokens are those of the part before, and those of the
part behind moved to where it begins. -/
theorem tokenize_restarts {text : Bytes} {p : Nat}
    (edge : p = 0 ∨ p = text.length ∨ ∃ t ∈ tokenize text, t.start = p) :
    tokenize text = tokenize (text.take p) ++
      (tokenize (text.drop p)).map (·.within p (locate (lineStarts text) p)) := by
  have between := Lexer.boundary_of_edge edge
  have behind := Lexer.tokensFrom_within 0 p {} (({} : Position).advance p text) (text.drop p)
  have split := Lexer.tokensFrom_split 0 {} between
  rw [Nat.add_zero, Position.within_start] at behind
  rw [Nat.zero_add, ← behind] at split
  rw [locate_lineStarts between.le]
  exact split

/-- The edge behind a comment over two lines, with a number and an open string after it. -/
theorem comment_edge_restarts :
    let text : Bytes := ascii "/*\r\n*/ 1e5'a"
    (∃ t ∈ tokenize text, t.start = 6) ∧
      tokenize text = tokenize (text.take 6) ++
        (tokenize (text.drop 6)).map (·.within 6 (locate (lineStarts text) 6)) := by
  intro text
  have edge : ∃ t ∈ tokenize text, t.start = 6 := by decide +kernel
  exact ⟨edge, tokenize_restarts (Or.inr (Or.inr edge))⟩

end QueryService
