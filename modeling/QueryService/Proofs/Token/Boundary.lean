import QueryService.Proofs.Text.Position
import QueryService.Proofs.Token.Lexeme

/-!
# Places between two tokens

Tokens cover a text from left to right. At a `Boundary` the text can be cut and tokenized in two pieces
with the same result (`tokensFrom_split`), and a piece can be tokenized on its own and moved into place
afterwards (`tokensFrom_within`).
-/

namespace QueryService
namespace Lexer

variable {n start : Nat} {p : Position} {text : Bytes} {t : Token}

theorem tokensFrom_nil (start : Nat) (p : Position) : tokensFrom start p [] = [] := by
  rw [tokensFrom]

theorem tokensFrom_cons (start : Nat) (p : Position) (c : UInt8) (rest : Bytes) :
    tokensFrom start p (c :: rest) =
      token (lexeme c rest).kind (c :: rest.take (lexeme c rest).extra) start p ::
        tokensFrom (start + ((lexeme c rest).extra + 1)) (p.advance ((lexeme c rest).extra + 1) (c :: rest))
          (rest.drop (lexeme c rest).extra) := by
  have length : (c :: rest.take (lexeme c rest).extra).length = (lexeme c rest).extra + 1 := by
    rw [List.length_cons, List.length_take, Nat.min_eq_left (lexeme_extra_le c rest)]
  rw [tokensFrom, length]

theorem tokenInduction {motive : Bytes → Prop} (nil : motive [])
    (cons : ∀ c rest, motive (rest.drop (lexeme c rest).extra) → motive (c :: rest)) (text : Bytes) :
    motive text := by
  induction length : text.length using Nat.strongRecOn generalizing text with
  | ind size ih =>
    cases text with
    | nil => exact nil
    | cons c rest =>
      refine cons c rest (ih _ ?_ _ rfl)
      rw [← length, List.length_drop, List.length_cons]
      omega

theorem tokensFrom_bounds (member : t ∈ tokensFrom start p text) :
    start ≤ t.start ∧ t.start < t.stop ∧ t.stop ≤ start + text.length := by
  induction text using tokenInduction generalizing start p with
  | nil => rw [tokensFrom_nil] at member; cases member
  | cons c rest ih =>
    have inside := lexeme_extra_le c rest
    rw [tokensFrom_cons] at member
    rw [List.length_cons]
    rcases List.mem_cons.mp member with rfl | later
    · simp only [token, List.length_cons, List.length_take]
      omega
    · have bounds := ih later
      rw [List.length_drop] at bounds
      omega

theorem token_within (kind : TokenKind) (value : Bytes) (start offset : Nat) (p origin : Position) :
    (token kind value start p).within offset origin = token kind value (offset + start) (p.within origin) := by
  simp [token, Token.within, Nat.add_assoc]

/-- A passage can be tokenized on its own and its tokens moved to its place. -/
theorem tokensFrom_within (start offset : Nat) (p origin : Position) (text : Bytes) :
    (tokensFrom start p text).map (·.within offset origin) =
      tokensFrom (offset + start) (p.within origin) text := by
  induction text using tokenInduction generalizing start p with
  | nil => rw [tokensFrom_nil, tokensFrom_nil, List.map_nil]
  | cons c rest ih =>
    rw [tokensFrom_cons, tokensFrom_cons, List.map_cons, token_within, ih, Position.advance_within, Nat.add_assoc]

/-- A place where one token of the text ends and the next one begins. -/
inductive Boundary : Nat → Bytes → Prop where
  | start (text : Bytes) : Boundary 0 text
  | step {c : UInt8} {rest : Bytes} {n : Nat} (later : Boundary n (rest.drop (lexeme c rest).extra)) :
      Boundary ((lexeme c rest).extra + 1 + n) (c :: rest)

theorem Boundary.length (text : Bytes) : Boundary text.length text := by
  induction text using tokenInduction with
  | nil => exact Boundary.start []
  | cons c rest ih =>
    have inside := lexeme_extra_le c rest
    have size : (c :: rest).length =
        (lexeme c rest).extra + 1 + (rest.drop (lexeme c rest).extra).length := by
      rw [List.length_cons, List.length_drop]
      omega
    rw [size]
    exact Boundary.step ih

theorem Boundary.le (between : Boundary n text) : n ≤ text.length := by
  induction between with
  | start => exact Nat.zero_le _
  | step _ ih =>
    rename_i c rest n _
    have inside := lexeme_extra_le c rest
    rw [List.length_drop] at ih
    rw [List.length_cons]
    omega

theorem drop_cons_add (c : UInt8) (rest : Bytes) (m n : Nat) :
    (c :: rest).drop (m + 1 + n) = (rest.drop m).drop n := by
  rw [Nat.add_right_comm, List.drop_succ_cons, List.drop_drop]

theorem Boundary.add {m : Nat} (first : Boundary m text) (second : Boundary n (text.drop m)) :
    Boundary (m + n) text := by
  induction first with
  | start => rwa [Nat.zero_add]
  | step _ ih =>
    rw [drop_cons_add] at second
    rw [Nat.add_assoc]
    exact Boundary.step (ih second)

/-- Cutting a text behind its first token, wherever, leaves that token as it is. -/
theorem tokensFrom_take (start n : Nat) (p : Position) (c : UInt8) (rest : Bytes) :
    tokensFrom start p ((c :: rest).take ((lexeme c rest).extra + 1 + n)) =
      token (lexeme c rest).kind (c :: rest.take (lexeme c rest).extra) start p ::
        tokensFrom (start + ((lexeme c rest).extra + 1)) (p.advance ((lexeme c rest).extra + 1) (c :: rest))
          ((rest.drop (lexeme c rest).extra).take n) := by
  have taken : (c :: rest).take ((lexeme c rest).extra + 1 + n) =
      c :: rest.take ((lexeme c rest).extra + n) := by
    rw [Nat.add_right_comm, List.take_succ_cons]
  have same : lexeme c (rest.take ((lexeme c rest).extra + n)) = lexeme c rest :=
    lexeme_take (Nat.le_add_right _ _)
  rw [taken, tokensFrom_cons, same, List.take_take, Nat.min_eq_left (Nat.le_add_right _ _), List.drop_take,
    Nat.add_sub_cancel_left]
  -- The position matters only if a token follows, and then a byte is there to look at.
  cases n with
  | zero => rw [List.take_zero, tokensFrom_nil, tokensFrom_nil]
  | succ n => rw [← taken, Position.advance_take _ _ (by omega)]

/-- What stands behind a boundary does not change the tokens before it, nor the other way round. -/
theorem tokensFrom_split (start : Nat) (p : Position) (between : Boundary n text) :
    tokensFrom start p text =
      tokensFrom start p (text.take n) ++ tokensFrom (start + n) (p.advance n text) (text.drop n) := by
  induction between generalizing start p with
  | start text => simp [tokensFrom_nil]
  | step _ ih =>
    rename_i c rest n _
    rw [tokensFrom_take, tokensFrom_cons, ih, List.cons_append, drop_cons_add,
      Position.advance_add p ((lexeme c rest).extra + 1), List.drop_succ_cons, Nat.add_assoc start]

end Lexer
end QueryService
