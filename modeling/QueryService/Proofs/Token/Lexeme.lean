import QueryService.Token.Lexer

/-!
# What a token looks at

How far a token reaches depends on the bytes it takes and at most one more: `lexeme_take` states that
cutting the text anywhere after a token leaves the token as it is. The lengths of its parts are
`Settled` in the same sense.
-/

namespace QueryService

/-- A length that stays inside the text and does not change if the text is cut off behind it. -/
structure Settled (length : Bytes → Nat) : Prop where
  le : ∀ text, length text ≤ text.length
  take : ∀ text n, length text ≤ n → length (text.take n) = length text

namespace Settled

variable {f g : Bytes → Nat}

theorem add (first : Settled f) (second : Settled g) :
    Settled fun text => f text + g (text.drop (f text)) where
  le text := by
    have := first.le text
    have := second.le (text.drop (f text))
    rw [List.length_drop] at this
    omega
  take text n inside := by
    rw [first.take text n (by omega), List.drop_take, second.take _ _ (by omega)]

theorem run (p : UInt8 → Bool) : Settled (Bytes.run p) where
  le text := (List.takeWhile_prefix p).length_le
  take text n inside := by
    induction text generalizing n with
    | nil => simp
    | cons c rest ih =>
      cases n with
      | zero => rw [List.take_zero, Nat.le_zero.mp inside]; rfl
      | succ n =>
        simp only [Bytes.run, List.take_succ_cons, List.takeWhile_cons] at inside ih ⊢
        split at inside <;> rename_i taken
        · rw [if_pos taken, if_pos taken, List.length_cons, List.length_cons, ih n (by simpa using inside)]
        · rw [if_neg taken, if_neg taken]

theorem led (lead : UInt8 → Bool) {behind : Bytes → Nat} (nil : f [] = 0)
    (cons : ∀ c rest, f (c :: rest) = if lead c then behind rest else 0)
    (le : ∀ rest, behind rest ≤ 1 + rest.length)
    (take : ∀ rest n, behind rest ≤ 1 + n → behind (rest.take n) = behind rest) : Settled f where
  le text := by
    cases text with
    | nil => rw [nil]; exact Nat.zero_le _
    | cons c rest =>
      have := le rest
      rw [cons, List.length_cons]
      split <;> omega
  take text n inside := by
    cases text with
    | nil => rw [List.take_nil]
    | cons c rest =>
      cases n with
      | zero => rw [List.take_zero, nil, Nat.le_zero.mp inside]
      | succ n =>
        rw [cons] at inside
        rw [List.take_succ_cons, cons, cons]
        split
        · rename_i opens
          rw [if_pos opens] at inside
          exact take rest n (by omega)
        · rfl

end Settled

namespace Lexer

theorem nextIs_take (p : UInt8 → Bool) (rest : Bytes) (n : Nat) :
    nextIs p (rest.take (n + 1)) = nextIs p rest := by
  simp [nextIs, List.head?_take]

theorem settled_blockCommentTail : Settled blockCommentTail where
  le text := by
    fun_induction blockCommentTail text with
    | case1 => exact Nat.le_refl 0
    | case2 => simp
    | case3 c rest _ ih => simpa using ih
  take text n inside := by
    fun_induction blockCommentTail text generalizing n with
    | case1 => simp [blockCommentTail]
    | case2 =>
      obtain ⟨n, rfl⟩ : ∃ k, n = k + 2 := ⟨n - 2, by omega⟩
      rfl
    | case3 c rest open_ ih =>
      obtain ⟨n, rfl⟩ : ∃ k, n = k + 1 := ⟨n - 1, by omega⟩
      rw [List.take_succ_cons, blockCommentTail, ih n (by omega)]
      intro later star slash
      cases rest with
      | nil => simp at slash
      | cons d rest =>
        cases n with
        | zero => simp at slash
        | succ n => exact open_ rest star (by rw [(List.cons.inj slash).1])

theorem stringTail_escape (quote next : UInt8) (rest : Bytes) :
    stringTail quote (Byte.backslash :: next :: rest) =
      if Byte.isBreak next then 1 else stringTail quote rest + 2 := rfl

theorem single_backslash {c : UInt8} {rest : Bytes}
    (whole : ∀ next later, c = Byte.backslash → rest = next :: later → False) : c = Byte.backslash → rest = [] := by
  intro escape
  cases rest with
  | nil => rfl
  | cons next later => exact (whole next later escape rfl).elim

theorem stringTail_cons {quote c : UInt8} {rest : Bytes} (plain : c = Byte.backslash → rest = []) :
    stringTail quote (c :: rest) =
      if Byte.isBreak c then 0 else if c == quote then 1 else stringTail quote rest + 1 := by
  rw [stringTail]
  intro next later escape more
  rw [plain escape] at more
  cases more

theorem settled_stringTail (quote : UInt8) : Settled (stringTail quote) where
  le text := by
    fun_induction stringTail quote text <;> simp_all
  take text n inside := by
    have plain {c : UInt8} {rest : Bytes} (n : Nat)
        (whole : ∀ next later, c = Byte.backslash → rest = next :: later → False) :
        c = Byte.backslash → rest.take n = [] := by
      intro escape
      rw [single_backslash whole escape, List.take_nil]
    fun_induction stringTail quote text generalizing n with
    | case1 => simp [stringTail]
    | case2 next rest ends =>
      obtain ⟨n, rfl⟩ : ∃ k, n = k + 1 := ⟨n - 1, by omega⟩
      cases n with
      | zero =>
        rw [List.take_succ_cons, List.take_zero, stringTail_cons fun _ => rfl, if_neg (by decide)]
        simp [stringTail]
      | succ n => rw [List.take_succ_cons, List.take_succ_cons, stringTail, if_pos ends]
    | case3 next rest inner ih =>
      obtain ⟨n, rfl⟩ : ∃ k, n = k + 2 := ⟨n - 2, by omega⟩
      rw [List.take_succ_cons, List.take_succ_cons, stringTail, if_neg inner, ih n (by omega)]
    | case4 c rest whole ends =>
      cases n with
      | zero => rfl
      | succ n => rw [List.take_succ_cons, stringTail_cons (plain n whole), if_pos ends]
    | case5 c rest whole inner closing =>
      obtain ⟨n, rfl⟩ : ∃ k, n = k + 1 := ⟨n - 1, by omega⟩
      rw [List.take_succ_cons, stringTail_cons (plain n whole), if_neg inner, if_pos closing]
    | case6 c rest whole inner other ih =>
      obtain ⟨n, rfl⟩ : ∃ k, n = k + 1 := ⟨n - 1, by omega⟩
      rw [List.take_succ_cons, stringTail_cons (plain n whole), if_neg inner, if_neg other, ih n (by omega)]

theorem nextIs_nil (p : UInt8 → Bool) : nextIs p [] = false := rfl

theorem nextIs_cons (p : UInt8 → Bool) (c : UInt8) (rest : Bytes) : nextIs p (c :: rest) = p c := rfl

theorem run_pos {p : UInt8 → Bool} {rest : Bytes} (next : nextIs p rest = true) : 0 < Bytes.run p rest := by
  cases rest with
  | nil => cases next
  | cons c rest =>
    rw [nextIs_cons] at next
    simp [Bytes.run, next]

/-- The length of a lead and the digits behind it, if there are any. -/
def digits (lead : Nat) (rest : Bytes) : Nat :=
  if nextIs Byte.isDigit rest then lead + Bytes.run Byte.isDigit rest else 0

theorem digits_le (lead : Nat) (rest : Bytes) : digits lead rest ≤ lead + rest.length := by
  have := (Settled.run Byte.isDigit).le rest
  unfold digits
  split <;> omega

theorem digits_eq_zero {lead : Nat} {rest : Bytes} (few : digits lead rest ≤ lead) : digits lead rest = 0 := by
  unfold digits at few ⊢
  split at few
  · rename_i next
    have := run_pos next
    omega
  · rename_i other
    exact if_neg other

theorem digits_take {lead n : Nat} {rest : Bytes} (inside : digits lead rest ≤ lead + n) :
    digits lead (rest.take n) = digits lead rest := by
  cases n with
  | zero => rw [digits_eq_zero inside]; rfl
  | succ n =>
    unfold digits at inside ⊢
    rw [nextIs_take]
    split
    · rename_i next
      rw [if_pos next] at inside
      rw [(Settled.run Byte.isDigit).take rest _ (by omega)]
    · rfl

theorem fraction_cons (c : UInt8) (rest : Bytes) :
    fraction (c :: rest) = if c == Byte.dot then digits 1 rest else 0 := by
  cases dot : c == Byte.dot with
  | true => rw [eq_of_beq dot, if_pos rfl]; rfl
  | false =>
    rw [if_neg Bool.false_ne_true, fraction]
    intro later same
    exact ne_of_beq_false dot (List.cons.inj same).1

theorem settled_fraction : Settled fraction :=
  Settled.led (· == Byte.dot) rfl fraction_cons (digits_le 1) fun _ _ => digits_take

/-- The length of an exponent whose mark is taken: digits, or a sign with digits behind it. -/
def scale (rest : Bytes) : Nat :=
  if nextIs Byte.isDigit rest then digits 1 rest
  else if nextIs Byte.isSign rest then digits 2 rest.tail else 0

theorem scale_le (rest : Bytes) : scale rest ≤ 1 + rest.length := by
  have := digits_le 1 rest
  unfold scale
  split
  · exact this
  · cases rest with
    | nil => exact Nat.zero_le _
    | cons sign later =>
      have := digits_le 2 later
      rw [List.length_cons]
      split
      · exact Nat.le_trans this (by omega)
      · exact Nat.zero_le _

theorem scale_take {n : Nat} {rest : Bytes} (inside : scale rest ≤ 1 + n) :
    scale (rest.take n) = scale rest := by
  unfold scale at inside ⊢
  cases n with
  | zero =>
    rw [List.take_zero, nextIs_nil, nextIs_nil, if_neg Bool.false_ne_true, if_neg Bool.false_ne_true]
    split at inside <;> rename_i next
    · rw [if_pos next, digits_eq_zero inside]
    · rw [if_neg next]
      split at inside <;> rename_i signed
      · rw [if_pos signed, digits_eq_zero (Nat.le_trans inside (by omega))]
      · rw [if_neg signed]
  | succ n =>
    rw [nextIs_take, nextIs_take]
    split at inside <;> rename_i next
    · rw [if_pos next, if_pos next, digits_take (by omega)]
    · rw [if_neg next, if_neg next]
      split at inside <;> rename_i signed
      · cases rest with
        | nil => rw [List.take_nil]
        | cons sign later =>
          rw [List.tail_cons] at inside
          rw [if_pos signed, if_pos signed, List.take_succ_cons, List.tail_cons, List.tail_cons,
            digits_take (by omega)]
      · rw [if_neg signed, if_neg signed]

theorem exponent_cons (c : UInt8) (rest : Bytes) :
    exponent (c :: rest) = if Byte.isExponentMark c then scale rest else 0 := by
  unfold exponent
  cases mark : Byte.isExponentMark c with
  | false => simp only [mark, Bool.not_false, if_true, Bool.false_eq_true, if_false]
  | true =>
    simp only [mark, Bool.not_true, Bool.false_eq_true, if_false, if_true, scale]
    split
    · rename_i next
      rw [digits, if_pos next]
    · cases rest with
      | nil => rfl
      | cons sign later =>
        rw [nextIs_cons Byte.isSign, List.tail_cons]
        cases signed : Byte.isSign sign <;> simp [digits, signed]

theorem settled_exponent : Settled exponent :=
  Settled.led Byte.isExponentMark rfl exponent_cons scale_le fun _ _ => scale_take

theorem settled_numberTail : Settled numberTail :=
  (((Settled.run Byte.isDigit).add settled_fraction).add settled_exponent).add (Settled.run Byte.isWordPart)

theorem settled_placeholderTail : Settled placeholderTail where
  le text := by
    unfold placeholderTail
    split
    · exact (Settled.run Byte.isDigit).le text
    · exact (Settled.run Byte.isWordPart).le text
  take text n inside := by
    unfold placeholderTail at inside ⊢
    cases n with
    | zero =>
      rw [Nat.le_zero.mp inside, List.take_zero, nextIs_nil]
      rfl
    | succ n =>
      rw [nextIs_take]
      split at inside <;> rename_i next
      · rw [if_pos next, if_pos next, (Settled.run Byte.isDigit).take text _ inside]
      · rw [if_neg next, if_neg next, (Settled.run Byte.isWordPart).take text _ inside]

theorem settled_sequenceTail (c : UInt8) : Settled (sequenceTail c) where
  le text := by
    unfold sequenceTail
    dsimp only
    split
    · rename_i complete
      rw [← complete.1, List.length_take]
      exact Nat.min_le_right _ _
    · exact Nat.zero_le _
  take text n inside := by
    unfold sequenceTail at inside ⊢
    dsimp only at inside ⊢
    rw [List.take_take]
    rcases Nat.le_total (Byte.sequenceLength c - 1) n with whole | cut
    · rw [Nat.min_eq_left whole]
    · rw [Nat.min_eq_right cut]
      split at inside
      · rw [Nat.le_antisymm inside cut]
      · rename_i incomplete
        rw [if_neg incomplete]
        split
        · rename_i complete
          have wanted : Byte.sequenceLength c - 1 = n :=
            Nat.le_antisymm (complete.1 ▸ List.length_take_le n text) cut
          rw [wanted] at incomplete complete
          exact (incomplete complete).elim
        · rfl

theorem startsPlaceholder_pos {c : UInt8} {rest : Bytes} (starts : startsPlaceholder c rest = true) :
    0 < placeholderTail rest := by
  unfold placeholderTail
  split
  · rename_i next
    exact run_pos next
  · rename_i other
    apply run_pos
    cases rest with
    | nil => simp [startsPlaceholder, nextIs] at starts
    | cons d rest =>
      simp only [startsPlaceholder, nextIs_cons] at starts other ⊢
      simp only [Byte.isWordPart]
      grind

theorem symbol_extra_le (c : UInt8) (rest : Bytes) : (symbol c rest).extra ≤ rest.length := by
  unfold symbol
  split
  · rename_i next
    cases rest with
    | nil => cases next
    | cons d rest => simp
  · repeat' split
    · exact Nat.zero_le _
    · exact Nat.zero_le _
    · exact (settled_sequenceTail c).le rest

theorem symbol_take {c : UInt8} {rest : Bytes} {n : Nat} (inside : (symbol c rest).extra ≤ n) :
    symbol c (rest.take n) = symbol c rest := by
  have unpaired {text : Bytes} (other : ¬ nextIs (fun d => isOperator [c, d]) text = true) :
      symbol c text = if Byte.isPunctuation c then ⟨.punctuation, 0⟩
        else if isOperator [c] then ⟨.operator, 0⟩ else ⟨.unknown, sequenceTail c text⟩ := by
    rw [symbol, if_neg other]
  have ahead : nextIs (fun d => isOperator [c, d]) (rest.take n) = nextIs (fun d => isOperator [c, d]) rest := by
    cases n with
    | succ n => exact nextIs_take _ rest n
    | zero =>
      unfold symbol at inside
      split at inside
      · cases inside
      · rename_i other
        rw [List.take_zero, nextIs_nil, Bool.eq_false_iff.mpr other]
  by_cases next : nextIs (fun d => isOperator [c, d]) rest = true
  · rw [symbol, symbol, ahead, if_pos next, if_pos next]
  · rw [unpaired next] at inside ⊢
    rw [unpaired (by rw [ahead]; exact next)]
    split
    · rfl
    · split
      · rfl
      · rename_i plain other
        rw [if_neg plain, if_neg other] at inside
        rw [(settled_sequenceTail c).take rest n inside]

theorem lexeme_extra_le (c : UInt8) (rest : Bytes) : (lexeme c rest).extra ≤ rest.length := by
  unfold lexeme
  split
  · exact (Settled.run Byte.isBlank).le rest
  split
  · dsimp only
    cases rest with
    | nil => simp [nextIs]
    | cons d rest => split <;> simp
  split
  · exact (Settled.run (!Byte.isBreak ·)).le rest
  split
  · rename_i opens
    cases rest with
    | nil => simp [nextIs] at opens
    | cons d rest =>
      have := settled_blockCommentTail.le rest
      simp only [List.tail_cons, List.length_cons]
      omega
  split
  · exact (settled_stringTail c).le rest
  split
  · exact settled_numberTail.le rest
  split
  · exact (Settled.run Byte.isWordPart).le rest
  split
  · exact settled_placeholderTail.le rest
  · exact symbol_extra_le c rest

theorem startsPlaceholder_nil (c : UInt8) : startsPlaceholder c [] = false := by
  rw [startsPlaceholder, nextIs_nil, nextIs_nil, Bool.and_false, Bool.and_false, Bool.or_false]

theorem lineComment_pos {c : UInt8} {rest : Bytes} (inLine : ¬ Byte.isBreak c = true)
    (again : nextIs (· == c) rest = true) : 0 < Bytes.run (!Byte.isBreak ·) rest := by
  cases rest with
  | nil => cases again
  | cons d rest =>
    have same : d = c := eq_of_beq again
    apply run_pos
    rw [nextIs_cons, same, Bool.not_eq_true _ |>.mp inLine]
    rfl

theorem lexeme_nil {c : UInt8} {rest : Bytes} (single : (lexeme c rest).extra = 0) :
    lexeme c [] = lexeme c rest := by
  unfold lexeme at single ⊢
  simp only [nextIs_nil, startsPlaceholder_nil, Bool.and_false, Bool.false_eq_true, if_false]
  split at single <;> rename_i blank
  · rw [if_pos blank, if_pos blank]
    exact congrArg _ single.symm
  rw [if_neg blank, if_neg blank]
  split at single <;> rename_i ends
  · rw [if_pos ends, if_pos ends]
    exact congrArg _ single.symm
  rw [if_neg ends, if_neg ends]
  split at single <;> rename_i line
  · have := lineComment_pos ends (Bool.and_eq_true_iff.mp line).2
    exact absurd single (Nat.ne_of_gt this)
  rw [if_neg line]
  split at single <;> rename_i block
  · exact absurd single (by dsimp only; omega)
  rw [if_neg block]
  split at single <;> rename_i quote
  · rw [if_pos quote, if_pos quote]
    exact congrArg _ single.symm
  rw [if_neg quote, if_neg quote]
  split at single <;> rename_i digit
  · rw [if_pos digit, if_pos digit]
    exact congrArg _ single.symm
  rw [if_neg digit, if_neg digit]
  split at single <;> rename_i word
  · rw [if_pos word, if_pos word]
    exact congrArg _ single.symm
  rw [if_neg word, if_neg word]
  split at single <;> rename_i sigil
  · exact absurd single (Nat.ne_of_gt (startsPlaceholder_pos sigil))
  rw [if_neg sigil]
  exact symbol_take (n := 0) (Nat.le_of_eq single)

/-- A token stays as it is when the text is cut off behind it. -/
theorem lexeme_take {c : UInt8} {rest : Bytes} {n : Nat} (inside : (lexeme c rest).extra ≤ n) :
    lexeme c (rest.take n) = lexeme c rest := by
  cases n with
  | zero => exact lexeme_nil (Nat.le_zero.mp inside)
  | succ n =>
    unfold lexeme startsPlaceholder at inside ⊢
    simp only [nextIs_take]
    split at inside <;> rename_i blank
    · rw [if_pos blank, if_pos blank, (Settled.run Byte.isBlank).take rest _ inside]
    rw [if_neg blank, if_neg blank]
    split at inside <;> rename_i ends
    · rw [if_pos ends, if_pos ends]
    rw [if_neg ends, if_neg ends]
    split at inside <;> rename_i line
    · rw [if_pos line, if_pos line, (Settled.run (!Byte.isBreak ·)).take rest _ inside]
    rw [if_neg line, if_neg line]
    split at inside <;> rename_i block
    · have shorter : blockCommentTail rest.tail ≤ n := by dsimp only at inside; omega
      rw [if_pos block, if_pos block, ← List.drop_one, List.drop_take, List.drop_one, Nat.add_sub_cancel,
        settled_blockCommentTail.take _ _ shorter]
    rw [if_neg block, if_neg block]
    split at inside <;> rename_i quote
    · rw [if_pos quote, if_pos quote, (settled_stringTail c).take rest _ inside]
    rw [if_neg quote, if_neg quote]
    split at inside <;> rename_i digit
    · rw [if_pos digit, if_pos digit, settled_numberTail.take rest _ inside]
    rw [if_neg digit, if_neg digit]
    split at inside <;> rename_i word
    · rw [if_pos word, if_pos word, (Settled.run Byte.isWordPart).take rest _ inside]
    rw [if_neg word, if_neg word]
    split at inside <;> rename_i sigil
    · rw [if_pos sigil, if_pos sigil, settled_placeholderTail.take rest _ inside]
    · rw [if_neg sigil, if_neg sigil, symbol_take inside]

theorem ite_kind_ne {p : Prop} [Decidable p] {kind : TokenKind} {a b : Lexeme} (first : a.kind ≠ kind)
    (second : b.kind ≠ kind) : (if p then a else b).kind ≠ kind := by
  split
  · exact first
  · exact second

theorem lexeme_ne_keyword (c : UInt8) (rest : Bytes) : (lexeme c rest).kind ≠ .keyword := by
  unfold lexeme symbol
  repeat' apply ite_kind_ne
  all_goals exact nofun

end Lexer
end QueryService
