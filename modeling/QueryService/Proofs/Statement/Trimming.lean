import QueryService.Proofs.Statement.Passage

/-!
# White space around a statement

Taking away the white space on both sides of a text takes away no significant token and changes none
(`significant_trim`), provided that no string of the text is left open.
-/

namespace QueryService
open Lexer

/-- No string among the tokens lacks its closing quote. -/
def Terminated (tokens : List Token) : Prop :=
  ∀ t ∈ tokens, t.kind = .string → Literal.isUnterminatedString t.value = false

variable {start n : Nat} {p : Position} {c : UInt8} {rest text : Bytes}

theorem token_kind_eq_string {kind : TokenKind} {value : Bytes} (string : kind = .string) :
    (token kind value start p).kind = .string := by
  rw [string]
  rfl

theorem closes_of_terminated (terminated : Terminated (tokensFrom start p (c :: rest)))
    (string : (lexeme c rest).kind = .string) : closes c rest = true := by
  rw [tokensFrom_cons] at terminated
  have whole := terminated _ List.mem_cons_self (token_kind_eq_string string)
  have form := lexeme_form c rest
  generalize lexeme c rest = next at string whole form
  cases form with
  | space _ trivial _ => rcases trivial with rfl | rfl <;> cases string
  | lineComment _ _ => cases string
  | blockComment _ _ => cases string
  | string quoted =>
    cases closed : closes c rest with
    | true => rfl
    | false =>
      have contradiction : false = true := whole.symm.trans (unterminated_of_open quoted closed)
      cases contradiction
  | semicolon _ => cases string
  | solid _ _ _ other _ => exact absurd string other

theorem terminated_rest (terminated : Terminated (tokensFrom start p (c :: rest))) :
    Terminated (tokensFrom (start + ((lexeme c rest).extra + 1)) (p.advance ((lexeme c rest).extra + 1) (c :: rest))
      (rest.drop (lexeme c rest).extra)) := by
  rw [tokensFrom_cons] at terminated
  exact fun t member => terminated t (List.mem_cons_of_mem _ member)

theorem significant_cons (t : Token) (tokens : List Token) :
    significantTokens (t :: tokens) =
      if t.isSignificant then t :: significantTokens tokens else significantTokens tokens := by
  rw [significantTokens, List.filter_cons]
  rfl

theorem lexeme_space (rest : Bytes) (space : Byte.isSpace c = true) :
    ((lexeme c rest).kind = .whitespace ∨ (lexeme c rest).kind = .newline) ∧
      Stretch Byte.isSpace ((lexeme c rest).extra + 1) (c :: rest) := by
  have form := lexeme_form c rest
  generalize lexeme c rest = next at form ⊢
  cases form with
  | space _ trivial stretch => exact ⟨trivial, stretch⟩
  | lineComment opens _ => rcases opens with rfl | rfl <;> cases space
  | blockComment opens _ => subst opens; cases space
  | string quoted =>
    rcases Bool.or_eq_true_iff.mp quoted with double | single
    · rw [eq_of_beq double] at space; cases space
    · rw [eq_of_beq single] at space; cases space
  | semicolon ends => subst ends; cases space
  | solid visible _ _ _ _ => rw [space] at visible; cases visible

theorem significant_trivial {kind : TokenKind} {value : Bytes} {tokens : List Token}
    (trivial : kind = .whitespace ∨ kind = .newline ∨ kind = .comment) :
    significantTokens (token kind value start p :: tokens) = significantTokens tokens := by
  rw [significant_cons, if_neg]
  rcases trivial with rfl | rfl | rfl <;> exact Bool.false_ne_true

theorem significant_spaces (start : Nat) (p : Position) (all : ∀ c ∈ text, Byte.isSpace c = true) :
    significantTokens (tokensFrom start p text) = [] := by
  induction text using tokenInduction generalizing start p with
  | nil => rw [tokensFrom_nil]; rfl
  | cons c rest ih =>
    obtain ⟨trivial, _⟩ := lexeme_space rest (all c List.mem_cons_self)
    rw [tokensFrom_cons, significant_trivial (trivial.imp_right Or.inl)]
    exact ih _ _ fun d inside => all d (List.mem_cons_of_mem c (List.mem_of_mem_drop inside))

theorem boundary_spaces (text : Bytes) : Boundary (Bytes.run Byte.isSpace text) text := by
  induction text using tokenInduction with
  | nil => exact Boundary.start []
  | cons c rest ih =>
    cases space : Byte.isSpace c with
    | false =>
      rw [Bytes.run_cons, space]
      exact Boundary.start _
    | true =>
      obtain ⟨_, stretch⟩ := lexeme_space rest space
      have whole : Bytes.run Byte.isSpace (c :: rest) =
          (lexeme c rest).extra + 1 + Bytes.run Byte.isSpace (rest.drop (lexeme c rest).extra) := by
        rw [Bytes.run_of_all stretch.le stretch.all, List.drop_succ_cons]
      rw [whole]
      exact Boundary.step ih

theorem blockCommentTail_take {n : Nat} {text : Bytes} (inside : n ≤ blockCommentTail text) :
    blockCommentTail (text.take n) = n := by
  fun_induction blockCommentTail text generalizing n with
  | case1 => rw [Nat.le_zero.mp inside]; rfl
  | case2 rest =>
    obtain rfl | rfl | rfl : n = 0 ∨ n = 1 ∨ n = 2 := by omega
    · rfl
    · rfl
    · rfl
  | case3 c rest unended ih =>
    cases n with
    | zero => rfl
    | succ n =>
      rw [List.take_succ_cons, blockCommentTail, ih (Nat.le_of_succ_le_succ inside)]
      intro later star slash
      cases rest with
      | nil => simp at slash
      | cons d rest =>
        cases n with
        | zero => cases slash
        | succ n => exact unended rest star (by rw [(List.cons.inj slash).1])

theorem comment_take {n : Nat} (comment : (lexeme c rest).kind = .comment) (opened : 0 < n)
    (inside : n ≤ (lexeme c rest).extra) : lexeme c (rest.take n) = ⟨.comment, n⟩ := by
  have form := lexeme_form c rest
  obtain ⟨n, rfl⟩ : ∃ k, n = k + 1 := ⟨n - 1, by omega⟩
  generalize lexeme c rest = next at comment inside form
  cases form with
  | space _ trivial _ => rcases trivial with rfl | rfl <;> cases comment
  | lineComment opens again =>
    rename_i later
    have line : lexeme c (c :: later.take n) = ⟨.comment, Bytes.run (!Byte.isBreak ·) (later.take n) + 1⟩ := by
      rcases opens with rfl | rfl <;> rfl
    rw [again, List.take_succ_cons, line, Bytes.run_take (Nat.le_of_succ_le_succ inside)]
  | blockComment opens star =>
    rename_i later
    have block : lexeme Byte.slash (Byte.star :: later.take n) = ⟨.comment, 1 + blockCommentTail (later.take n)⟩ := rfl
    rw [opens, star, List.take_succ_cons, block, blockCommentTail_take (Nat.le_of_succ_le_succ inside), Nat.add_comm]
  | string _ => cases comment
  | semicolon _ => cases comment
  | solid _ _ significant _ _ => subst comment; cases significant

theorem getElem?_of_closes {quote : UInt8} (closed : closes quote text = true) :
    ∃ n, stringTail quote text = n + 1 ∧ text[n]? = some quote := by
  fun_induction stringTail quote text with
  | case1 => cases closed
  | case2 next rest ends =>
    rw [closes, ends] at closed
    cases closed
  | case3 next rest inner ih =>
    rw [closes, Bool.and_eq_true] at closed
    obtain ⟨n, size, final⟩ := ih closed.2
    exact ⟨n + 2, by rw [size], by simpa using final⟩
  | case4 c rest whole ends =>
    rw [closes, ends] at closed
    · cases closed
    · exact whole
  | case5 c rest whole inner closing => exact ⟨0, rfl, by rw [eq_of_beq closing]; rfl⟩
  | case6 c rest whole inner other ih =>
    rw [closes, Bool.eq_false_iff.mpr other, Bool.false_or, Bool.and_eq_true] at closed
    · obtain ⟨n, size, final⟩ := ih closed.2
      exact ⟨n + 1, by rw [size], by simpa using final⟩
    · exact whole

theorem mem_take_of_getElem? {k i : Nat} {d : UInt8} (there : text[i]? = some d) (lt : i < k) :
    d ∈ text.take k := by
  apply List.mem_of_getElem? (i := i)
  rw [List.getElem?_take, if_pos lt, there]

theorem mem_drop_of_getElem? {k i : Nat} {d : UInt8} (there : text[i]? = some d) (le : k ≤ i) :
    d ∈ text.drop k := by
  apply List.mem_of_getElem? (i := i - k)
  rw [List.getElem?_drop, Nat.add_sub_cancel' le, there]

theorem comment_second (comment : (lexeme c rest).kind = .comment) :
    ∃ d later, rest = d :: later ∧ Byte.isSpace d = false := by
  have form := lexeme_form c rest
  generalize lexeme c rest = next at comment form
  cases form with
  | space _ trivial _ => rcases trivial with rfl | rfl <;> cases comment
  | lineComment opens again => exact ⟨c, _, again, by rcases opens with rfl | rfl <;> rfl⟩
  | blockComment _ star => exact ⟨Byte.star, _, star, rfl⟩
  | string _ => cases comment
  | semicolon _ => cases comment
  | solid _ _ significant _ _ => subst comment; cases significant

/-- Only a comment goes on over the white space at the end of a text. -/
theorem comment_of_beyond {k : Nat} (opened : 0 < k) (beyond : k ≤ (lexeme c rest).extra)
    (closed : (lexeme c rest).kind = .string → closes c rest = true)
    (spaces : ∀ d ∈ (c :: rest).drop k, Byte.isSpace d = true)
    (last : ∀ d, ((c :: rest).take k).getLast? = some d → Byte.isSpace d = false) :
    (lexeme c rest).kind = .comment := by
  have form := lexeme_form c rest
  generalize lexeme c rest = next at beyond closed form ⊢
  cases form with dsimp only at beyond
  | space _ _ stretch =>
    have taken : (c :: rest).take k ≠ [] := by
      rw [Ne, List.take_eq_nil_iff]
      exact not_or.mpr ⟨Nat.ne_of_gt opened, List.cons_ne_nil c rest⟩
    have final := List.getLast?_eq_some_getLast taken
    have space : Byte.isSpace (((c :: rest).take k).getLast taken) = true := by
      apply stretch.all
      exact (List.take_subset_take_left _ (Nat.le_succ_of_le beyond)) (List.getLast_mem taken)
    rw [last _ final] at space
    cases space
  | lineComment _ _ => rfl
  | blockComment _ _ => rfl
  | string quoted =>
    obtain ⟨n, size, final⟩ := getElem?_of_closes (closed rfl)
    have space := spaces c (mem_drop_of_getElem? (i := n + 1) (by rw [List.getElem?_cons_succ, final]) (by omega))
    rcases Bool.or_eq_true_iff.mp quoted with double | single
    · rw [eq_of_beq double] at space; cases space
    · rw [eq_of_beq single] at space; cases space
  | semicolon _ => exact absurd opened (Nat.not_lt.mpr beyond)
  | solid _ _ _ _ stretch =>
    have there := List.getElem?_eq_getElem (Nat.lt_of_le_of_lt beyond stretch.le)
    have space := spaces _ (mem_drop_of_getElem? there (Nat.le_refl k))
    have visible := stretch.all _ (mem_take_of_getElem? there (Nat.lt_succ_of_le beyond))
    rw [space] at visible
    cases visible

/-- White space behind a text without open strings holds no significant token, unless it belongs to a
comment, and a comment may as well end before it. -/
theorem significant_take (start : Nat) (p : Position) {k : Nat} (inside : k ≤ text.length)
    (terminated : Terminated (tokensFrom start p text))
    (spaces : ∀ c ∈ text.drop k, Byte.isSpace c = true)
    (last : ∀ c, (text.take k).getLast? = some c → Byte.isSpace c = false) :
    significantTokens (tokensFrom start p (text.take k)) = significantTokens (tokensFrom start p text) := by
  induction text using tokenInduction generalizing start p k with
  | nil => rw [List.take_nil]
  | cons c rest ih =>
    rcases Nat.lt_or_ge (lexeme c rest).extra k with within | beyond
    · obtain ⟨n, rfl⟩ : ∃ n, k = (lexeme c rest).extra + 1 + n := ⟨k - ((lexeme c rest).extra + 1), by omega⟩
      have size : n ≤ (rest.drop (lexeme c rest).extra).length := by
        rw [List.length_drop]
        rw [List.length_cons] at inside
        omega
      have lastLater (d : UInt8) (found : ((rest.drop (lexeme c rest).extra).take n).getLast? = some d) :
          Byte.isSpace d = false := by
        apply last
        rw [Nat.add_right_comm, List.take_succ_cons, List.take_add, ← List.cons_append, List.getLast?_append, found]
        rfl
      rw [drop_cons_add] at spaces
      rw [tokensFrom_take, tokensFrom_cons, significant_cons, significant_cons,
        ih _ _ size (terminated_rest terminated) spaces lastLater]
    · cases k with
      | zero =>
        rw [List.drop_zero] at spaces
        rw [List.take_zero, significant_spaces start p spaces, tokensFrom_nil]
        rfl
      | succ j =>
        have comment := comment_of_beyond (Nat.succ_pos j) beyond (closes_of_terminated terminated) spaces last
        rw [List.drop_succ_cons] at spaces
        have opened : 0 < j := by
          obtain ⟨d, later, second, visible⟩ := comment_second comment
          apply Nat.pos_of_ne_zero
          rintro rfl
          rw [spaces d (by rw [second]; exact List.mem_cons_self)] at visible
          cases visible
        have cut := comment_take comment opened (Nat.le_of_succ_le beyond)
        have size : (rest.take j).length = j := by
          rw [List.length_take, Nat.min_eq_left (Nat.le_of_succ_le_succ inside)]
        have behind (d : UInt8) (member : d ∈ rest.drop (lexeme c rest).extra) : Byte.isSpace d = true :=
          spaces d (List.drop_subset_drop_left rest (Nat.le_of_succ_le beyond) member)
        rw [List.take_succ_cons, tokensFrom_cons, tokensFrom_cons, cut, comment,
          significant_trivial (Or.inr (Or.inr rfl)), significant_trivial (Or.inr (Or.inr rfl)),
          significant_spaces _ _ behind, List.drop_eq_nil_of_le (Nat.le_of_eq size), tokensFrom_nil]
        rfl

theorem significant_append (before behind : List Token) :
    significantTokens (before ++ behind) = significantTokens before ++ significantTokens behind :=
  List.filter_append before behind

/-- The significant tokens of a text are those of what trimming leaves of it. -/
theorem significant_trim (start : Nat) (p : Position) (terminated : Terminated (tokensFrom start p text)) :
    significantTokens (tokensFrom start p text) =
      significantTokens (tokensFrom (start + Bytes.run Byte.isSpace text)
        (p.advance (Bytes.run Byte.isSpace text) text) (Bytes.trim Byte.isSpace text)) := by
  have split := tokensFrom_split start p (boundary_spaces text)
  have leading := significant_spaces start p
    fun c (member : c ∈ text.take (Bytes.run Byte.isSpace text)) => Bytes.mem_take_run member
  rw [split] at terminated
  rw [split, significant_append, leading, List.nil_append]
  obtain ⟨k, inside, kept, spaces, last⟩ :=
    Bytes.trimEnd_eq_take Byte.isSpace (text.drop (Bytes.run Byte.isSpace text))
  have trimmed : Bytes.trim Byte.isSpace text = (text.drop (Bytes.run Byte.isSpace text)).take k := by
    rw [← kept, Bytes.trim, Bytes.dropWhile_eq_drop_run]
  rw [trimmed]
  exact (significant_take _ _ inside (fun t member => terminated t (List.mem_append_right _ member)) spaces last).symm

end QueryService
