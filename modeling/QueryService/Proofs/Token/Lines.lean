import QueryService.Proofs.Statement.Passage
import QueryService.Proofs.Text.Lines
import QueryService.Proofs.Token.Tiling
import QueryService.Text.Document

/-!
# Tokens and lines

Only a line break and a block comment hold line breaks (`value_inLine`), and no token ends inside of one
(`lexeme_keepsBreaks`). So every token stands in the line and at the column that its position says, and
a text whose breaks are all written as line feeds has the same tokens at the same positions
(`line_models_agree`).
-/

namespace QueryService
namespace Lexer

variable {c : UInt8} {n start : Nat} {p : Position} {rest text : Bytes}

/-- Whether the token that starts with `c` is a line break or a block comment. -/
def mayBreak (c : UInt8) (rest : Bytes) : Bool :=
  Byte.isBreak c || c == Byte.slash && nextIs (· == Byte.star) rest

theorem run_eq_length (text : Bytes) : Bytes.run (!Byte.isBreak ·) text = (upToBreak text).length := rfl

theorem upToBreak_eq_take (text : Bytes) : upToBreak text = text.take (Bytes.run (!Byte.isBreak ·) text) :=
  List.prefix_iff_eq_take.mp (List.takeWhile_prefix _)

theorem le_run_of_visible (le : n ≤ text.length) (visible : ∀ d ∈ text.take n, (!Byte.isSpace d) = true) :
    n ≤ Bytes.run (!Byte.isBreak ·) text := by
  refine Bytes.le_run le fun d member => ?_
  have hidden := visible d member
  rw [Byte.isSpace, Bool.not_or, Bool.and_eq_true] at hidden
  exact hidden.2

theorem stringTail_le_run (quote : UInt8) (text : Bytes) :
    stringTail quote text ≤ Bytes.run (!Byte.isBreak ·) text := by
  fun_induction stringTail quote text with
  | case1 => exact Nat.le_refl 0
  | case2 next rest ends => rw [Bytes.run_cons, if_pos (by rfl)]; omega
  | case3 next rest inner ih =>
    rw [Bytes.run_cons, if_pos (by rfl), Bytes.run_cons, if_pos (by simpa using inner)]
    omega
  | case4 => exact Nat.zero_le _
  | case5 c rest whole inner closing => rw [Bytes.run_cons, if_pos (by simpa using inner)]; omega
  | case6 c rest whole inner other ih => rw [Bytes.run_cons, if_pos (by simpa using inner)]; omega

theorem lexeme_inLine (single : mayBreak c rest = false) :
    (lexeme c rest).extra ≤ Bytes.run (!Byte.isBreak ·) rest := by
  obtain ⟨inner, unopened⟩ := Bool.or_eq_false_iff.mp single
  cases blank : Byte.isBlank c with
  | true =>
    rw [lexeme, if_pos blank]
    refine Bytes.le_run ((Settled.run Byte.isBlank).le rest) fun d member => ?_
    rcases Bool.or_eq_true_iff.mp (Bytes.mem_take_run member) with space | tab
    · rw [eq_of_beq space]; rfl
    · rw [eq_of_beq tab]; rfl
  | false =>
    have form := lexeme_form c rest
    generalize lexeme c rest = next at form ⊢
    cases form with
    | space space _ _ => rw [Byte.isSpace, blank, inner] at space; cases space
    | lineComment _ again =>
      rename_i later
      rw [again, Bytes.run_cons, inner]
      exact Nat.le_refl _
    | blockComment opens star =>
      rw [opens, star] at unopened
      cases unopened
    | string _ => exact stringTail_le_run c rest
    | semicolon _ => exact Nat.zero_le _
    | solid _ _ _ _ stretch =>
      exact le_run_of_visible (Nat.le_of_succ_le_succ stretch.le) fun d member =>
        stretch.all d (List.mem_cons_of_mem c member)

/-- A token but for a line break and a block comment stays in its line. -/
theorem value_inLine (single : mayBreak c rest = false) :
    ∀ d ∈ c :: rest.take (lexeme c rest).extra, Byte.isBreak d = false := by
  intro d member
  rcases List.mem_cons.mp member with rfl | behind
  · exact (Bool.or_eq_false_iff.mp single).1
  · have inLine := Bytes.mem_take_run (List.take_subset_take_left rest (lexeme_inLine single) behind)
    simpa using inLine

theorem lexeme_break (ended : Byte.isBreak c = true) (rest : Bytes) :
    lexeme c rest = ⟨.newline, if c == Byte.cr && nextIs (· == Byte.lf) rest then 1 else 0⟩ := by
  have visible : Byte.isBlank c = false := by
    rcases Bool.or_eq_true_iff.mp ended with feed | back
    · rw [eq_of_beq feed]; rfl
    · rw [eq_of_beq back]; rfl
  rw [lexeme, visible, if_neg Bool.false_ne_true, if_pos ended]

theorem lexeme_pair (later : Bytes) : lexeme Byte.cr (Byte.lf :: later) = ⟨.newline, 1⟩ := rfl

theorem lexeme_ends (ends : endsLine c rest = true) : lexeme c rest = ⟨.newline, 0⟩ := by
  rw [lexeme_break (isBreak_of_endsLine ends), if_neg]
  intro pair
  cases rest with
  | nil => cases (Bool.and_eq_true_iff.mp pair).2
  | cons d later =>
    rw [Bool.and_eq_true, nextIs_cons, beq_iff_eq, beq_iff_eq] at pair
    exact not_pair_of_endsLine ends later pair.1 (by rw [pair.2])

theorem lexeme_block (later : Bytes) :
    lexeme Byte.slash (Byte.star :: later) = ⟨.comment, 1 + blockCommentTail later⟩ := rfl

theorem mayBreak_cases (may : mayBreak c rest = true) :
    Byte.isBreak c = true ∨ c = Byte.slash ∧ ∃ later, rest = Byte.star :: later := by
  refine (Bool.or_eq_true_iff.mp may).imp_right fun opens => ?_
  rw [Bool.and_eq_true, beq_iff_eq] at opens
  cases rest with
  | nil => cases opens.2
  | cons d later => exact ⟨opens.1, later, by rw [eq_of_beq opens.2]⟩

/-! ### Ends of tokens -/

theorem blockCommentTail_cons (unended : (c == Byte.star && nextIs (· == Byte.slash) rest) = false) :
    blockCommentTail (c :: rest) = blockCommentTail rest + 1 := by
  rw [blockCommentTail]
  rintro later rfl rfl
  cases unended

theorem blockCommentTail_pos (nonempty : text ≠ []) : 0 < blockCommentTail text := by
  fun_cases blockCommentTail text
  case case1 => contradiction
  all_goals omega

theorem blockCommentTail_keepsBreaks (text : Bytes) :
    KeepsBreaks (text.take (blockCommentTail text)) (text.drop (blockCommentTail text)) := by
  fun_induction blockCommentTail text with
  | case1 => intro back; cases back
  | case2 rest => intro back; cases back
  | case3 c rest unended ih =>
    rw [List.take_succ_cons, List.drop_succ_cons]
    cases rest with
    | nil => intro _ next; cases next
    | cons d later =>
      have progress := blockCommentTail_pos (List.cons_ne_nil d later)
      obtain ⟨k, length⟩ := Nat.exists_eq_succ_of_ne_zero (Nat.ne_of_gt progress)
      rw [length] at ih ⊢
      intro back
      exact ih (by rwa [List.take_succ_cons, List.getLast?_cons_cons] at back)

/-- No token ends between a carriage return and its line feed. -/
theorem lexeme_keepsBreaks (c : UInt8) (rest : Bytes) :
    KeepsBreaks (c :: rest.take (lexeme c rest).extra) (rest.drop (lexeme c rest).extra) := by
  cases may : mayBreak c rest with
  | false =>
    intro back
    have inLine := value_inLine may _ (List.mem_of_getLast? back)
    cases inLine
  | true =>
    rcases mayBreak_cases may with ended | ⟨rfl, later, rfl⟩
    · cases ends : endsLine c rest with
      | true =>
        rw [lexeme_ends ends]
        intro back next
        obtain ⟨later, ahead⟩ := List.head?_eq_some_iff.mp next
        exact not_pair_of_endsLine ends later (Option.some.inj back) ahead
      | false =>
        obtain ⟨rfl, later, rfl⟩ := pair_of_break ended ends
        exact nofun
    · have keeps := blockCommentTail_keepsBreaks later
      rw [lexeme_block, Nat.add_comm 1]
      exact (keeps.cons (by decide)).cons (by decide)

theorem Boundary.keepsBreaks (between : Boundary n text) : KeepsBreaks (text.take n) (text.drop n) := by
  induction between with
  | start text => exact nofun
  | step later ih =>
    rename_i c rest n
    have first := lexeme_keepsBreaks c rest
    rw [drop_cons_add, Nat.add_right_comm, List.take_succ_cons, List.take_add, ← List.cons_append]
    refine KeepsBreaks.append ?_ ih
    rwa [List.take_append_drop]

/-! ### Breaks written as line feeds -/

theorem nextIs_feedBreaks {q : UInt8 → Bool} (same : q Byte.cr = q Byte.lf) (text : Bytes) :
    nextIs q (feedBreaks text) = nextIs q text := by
  induction text using lineInduction with
  | nil => rfl
  | pair rest _ => rw [feedBreaks_pair, nextIs_cons, nextIs_cons, same]
  | ends c rest ends _ =>
    rw [feedBreaks_ends ends, nextIs_cons, nextIs_cons]
    rcases Bool.or_eq_true_iff.mp (isBreak_of_endsLine ends) with feed | back
    · rw [eq_of_beq feed]
    · rw [eq_of_beq back, same]
  | inner c rest inner _ => rw [feedBreaks_inner rest inner, nextIs_cons, nextIs_cons]

theorem feedBreaks_of_inLine (inLine : ∀ d ∈ text, Byte.isBreak d = false) : feedBreaks text = text := by
  induction text with
  | nil => rfl
  | cons c rest ih =>
    have behind : feedBreaks rest = rest := ih fun d member => inLine d (List.mem_cons_of_mem c member)
    rw [feedBreaks_inner rest (inLine c List.mem_cons_self), behind]

theorem feedBreaks_take_run (text : Bytes) :
    Bytes.run (!Byte.isBreak ·) (feedBreaks text) = Bytes.run (!Byte.isBreak ·) text ∧
      (feedBreaks text).take (Bytes.run (!Byte.isBreak ·) text) = text.take (Bytes.run (!Byte.isBreak ·) text) := by
  have length : Bytes.run (!Byte.isBreak ·) (feedBreaks text) = Bytes.run (!Byte.isBreak ·) text := by
    rw [run_eq_length, run_eq_length, upToBreak_feedBreaks]
  refine ⟨length, ?_⟩
  rw [← upToBreak_eq_take, ← upToBreak_feedBreaks text, upToBreak_eq_take, length]

theorem lexeme_feedBreaks_inLine (single : mayBreak c rest = false) :
    lexeme c (feedBreaks rest) = lexeme c rest := by
  obtain ⟨length, taken⟩ := feedBreaks_take_run rest
  have still : mayBreak c (feedBreaks rest) = false := by
    rw [mayBreak, nextIs_feedBreaks (by decide)]
    exact single
  have inside := lexeme_inLine still
  rw [length] at inside
  rw [← lexeme_take inside, taken, lexeme_take (lexeme_inLine single)]

/-- A block comment ends at the same place when the breaks in it and behind it become line feeds. -/
theorem blockCommentTail_feedBreaks (text : Bytes) :
    blockCommentTail (feedBreaks text) = (feedBreaks (text.take (blockCommentTail text))).length := by
  induction text using lineInduction with
  | nil => rfl
  | pair rest ih =>
    have tail : blockCommentTail (Byte.cr :: Byte.lf :: rest) = blockCommentTail rest + 2 := rfl
    rw [tail, List.take_succ_cons, List.take_succ_cons, feedBreaks_pair, feedBreaks_pair, List.length_cons, ← ih,
      blockCommentTail_cons (by rfl)]
  | ends c rest ends ih =>
    -- What the comment takes may end with this very byte, so its end is looked at on its own.
    have ended := isBreak_of_endsLine ends
    have unended : (c == Byte.star && nextIs (· == Byte.slash) rest) = false := by
      rw [beq_false_of_ne, Bool.false_and]
      rintro rfl
      cases ended
    have keeps := blockCommentTail_keepsBreaks (c :: rest)
    rw [blockCommentTail_cons unended, List.take_succ_cons, List.drop_succ_cons] at keeps
    have still : endsLine c (rest.take (blockCommentTail rest)) = true := by
      rw [← endsLine_append keeps, List.take_append_drop, ends]
    rw [blockCommentTail_cons unended, List.take_succ_cons, feedBreaks_ends ends, feedBreaks_ends still,
      List.length_cons, ← ih, blockCommentTail_cons (by rfl)]
  | inner c rest inner ih =>
    have next := nextIs_feedBreaks (q := (· == Byte.slash)) (by decide) rest
    cases ended : c == Byte.star && nextIs (· == Byte.slash) rest with
    | false =>
      rw [blockCommentTail_cons ended, List.take_succ_cons, feedBreaks_inner rest inner, feedBreaks_inner _ inner,
        List.length_cons, ← ih, blockCommentTail_cons (by rw [next, ended])]
    | true =>
      rw [Bool.and_eq_true, beq_iff_eq] at ended
      obtain ⟨rfl, slash⟩ := ended
      cases rest with
      | nil => cases slash
      | cons d later =>
        rw [nextIs_cons, beq_iff_eq] at slash
        rw [slash, feedBreaks_inner _ inner, feedBreaks_inner later (by rfl)]
        rfl

/-- With its breaks written as line feeds a text begins with a token of the same kind, and with the same
value but for the breaks. -/
theorem lexeme_feedBreaks (c : UInt8) (rest : Bytes) :
    ∃ d later, feedBreaks (c :: rest) = d :: later ∧ (lexeme d later).kind = (lexeme c rest).kind ∧
      d :: later.take (lexeme d later).extra = feedBreaks (c :: rest.take (lexeme c rest).extra) := by
  cases may : mayBreak c rest with
  | false =>
    have inner := (Bool.or_eq_false_iff.mp may).1
    have inside := lexeme_inLine may
    have taken := congrArg (List.take (lexeme c rest).extra) (feedBreaks_take_run rest).2
    rw [List.take_take, List.take_take, Nat.min_eq_left inside] at taken
    refine ⟨c, feedBreaks rest, feedBreaks_inner rest inner, by rw [lexeme_feedBreaks_inLine may], ?_⟩
    rw [lexeme_feedBreaks_inLine may, feedBreaks_of_inLine (value_inLine may), taken]
  | true =>
    rcases mayBreak_cases may with ended | ⟨rfl, later, rfl⟩
    · cases ends : endsLine c rest with
      | true =>
        refine ⟨Byte.lf, feedBreaks rest, feedBreaks_ends ends, ?_, ?_⟩
        · rw [lexeme_ends ends, lexeme_ends (by rfl)]
        · have keeps : KeepsBreaks [c] rest := by
            have all := lexeme_keepsBreaks c rest
            rwa [lexeme_ends ends] at all
          have still : endsLine c [] = true := (endsLine_append keeps).symm.trans ends
          rw [lexeme_ends ends, lexeme_ends (by rfl), List.take_zero, List.take_zero, feedBreaks_ends still,
            feedBreaks_nil]
      | false =>
        obtain ⟨rfl, later, rfl⟩ := pair_of_break ended ends
        refine ⟨Byte.lf, feedBreaks later, feedBreaks_pair later, ?_, ?_⟩
        · rw [lexeme_pair, lexeme_ends (by rfl)]
        · rw [lexeme_pair, lexeme_ends (by rfl)]
          rfl
    · have opened : feedBreaks (Byte.slash :: Byte.star :: later) = Byte.slash :: Byte.star :: feedBreaks later := by
        rw [feedBreaks_inner _ (by rfl), feedBreaks_inner _ (by rfl)]
      have split := feedBreaks_append (blockCommentTail_keepsBreaks later)
      rw [List.take_append_drop] at split
      refine ⟨Byte.slash, Byte.star :: feedBreaks later, opened, rfl, ?_⟩
      rw [lexeme_block, lexeme_block, Nat.add_comm 1, Nat.add_comm 1, List.take_succ_cons, List.take_succ_cons,
        feedBreaks_inner _ (by rfl), feedBreaks_inner _ (by rfl), blockCommentTail_feedBreaks, split, List.take_left]

theorem mayBreak_kind (may : mayBreak c rest = true) : (lexeme c rest).kind ≠ .identifier := by
  rcases mayBreak_cases may with ended | ⟨rfl, later, rfl⟩
  · rw [lexeme_break ended]
    exact TokenKind.noConfusion
  · exact TokenKind.noConfusion

theorem token_kind_feedBreaks (c : UInt8) (rest : Bytes) (start start' : Nat) (p p' : Position) :
    (token (lexeme c rest).kind (feedBreaks (c :: rest.take (lexeme c rest).extra)) start' p').kind =
      (token (lexeme c rest).kind (c :: rest.take (lexeme c rest).extra) start p).kind := by
  unfold token
  dsimp only
  by_cases word : (lexeme c rest).kind = .identifier
  · rw [feedBreaks_of_inLine (value_inLine (Bool.eq_false_iff.mpr fun may => mayBreak_kind may word))]
  · rw [if_neg word, if_neg word]

/-- A text has the same tokens, by their kinds and positions, when its breaks are written as line feeds. -/
theorem tokensFrom_feedBreaks (start start' : Nat) (p : Position) (text : Bytes) :
    (tokensFrom start' p (feedBreaks text)).map (fun t => (t.kind, t.position)) =
      (tokensFrom start p text).map fun t => (t.kind, t.position) := by
  induction text using tokenInduction generalizing start start' p with
  | nil => rw [feedBreaks_nil, tokensFrom_nil, tokensFrom_nil]
  | cons c rest ih =>
    obtain ⟨d, later, opened, kind, value⟩ := lexeme_feedBreaks c rest
    have keeps := lexeme_keepsBreaks c rest
    have whole : c :: rest.take (lexeme c rest).extra ++ rest.drop (lexeme c rest).extra = c :: rest := by
      rw [List.cons_append, List.take_append_drop]
    have split := feedBreaks_append keeps
    rw [whole, opened, ← value, List.cons_append, List.cons.injEq] at split
    -- No token cuts a break in two, so what is left behind it is written with line feeds as well.
    have behind : later.drop (lexeme d later).extra = feedBreaks (rest.drop (lexeme c rest).extra) := by
      have parts := List.take_append_drop (lexeme d later).extra later
      exact List.append_cancel_left (parts.trans split.2)
    have forward := advance_feedBreaks p keeps
    rw [whole, opened, ← value, length_value, length_value] at forward
    rw [opened, tokensFrom_cons, tokensFrom_cons, List.map_cons, List.map_cons, behind, forward, ih, value, kind,
      token_kind_feedBreaks c rest start start' p p]
    rfl

end Lexer

theorem Document.line_ofText {text line : Bytes} {k : Nat} (found : (splitLines text)[k]? = some line) :
    (Document.ofText text).line k = .ok line := by
  obtain ⟨inside, _⟩ := List.getElem?_eq_some_iff.mp found
  have lines : (Document.ofText text).lines = splitLines text := rfl
  rw [Document.line, Document.lineCount, Document.lineText, lines, if_pos inside, List.getD_eq_getElem?_getD, found]
  rfl

/-- The line starts, the number of lines and the lines of a document agree, every token stands in the
line and at the column of its position, and no token moves when the text is read back from its lines. -/
theorem line_models_agree (text : Bytes) :
    lineCount text = (lineStarts text).length ∧
    (Document.ofText text).lineCount = (lineStarts text).length ∧
    (∀ k (inside : k < (lineStarts text).length),
      (Document.ofText text).line k = .ok (upToBreak (text.drop (lineStarts text)[k]))) ∧
    (∀ t ∈ tokenize text, t.position = locate (lineStarts text) t.start ∧
      ∃ before behind, (Document.ofText text).line t.line = .ok (before ++ upToBreak t.value ++ behind) ∧
        before.length = t.column) ∧
    (tokenize (Document.ofText text).text).map (fun t => (t.kind, t.position)) =
      (tokenize text).map fun t => (t.kind, t.position) := by
  have count : (splitLines text).length = (lineStarts text).length := by
    rw [splitLines_eq_map, List.length_map]
  refine ⟨(lineCount_eq_length text).trans count, count, ?_, ?_, Lexer.tokensFrom_feedBreaks 0 0 {} text⟩
  · intro k inside
    apply Document.line_ofText
    rw [splitLines_eq_map, List.getElem?_map, List.getElem?_eq_getElem inside]
    rfl
  · intro t member
    have origin : ({} : Position) = locate (lineStarts text) 0 := by
      rw [locate_lineStarts (Nat.zero_le _), Position.advance_zero]
    refine ⟨Lexer.position_tokensFrom origin (Nat.zero_le _) (List.prefix_refl text) member, ?_⟩
    obtain ⟨n, c, rest, between, ahead, rfl⟩ := Lexer.mem_tokensFrom member
    obtain ⟨before, column, line⟩ := exists_line_at between.keepsBreaks
    have split : text.drop n = c :: rest.take (Lexer.lexeme c rest).extra ++ rest.drop (Lexer.lexeme c rest).extra := by
      rw [ahead, List.cons_append, List.take_append_drop]
    obtain ⟨behind, opened⟩ :=
      upToBreak_append (c :: rest.take (Lexer.lexeme c rest).extra) (rest.drop (Lexer.lexeme c rest).extra)
    rw [split, opened, ← List.append_assoc] at line
    exact ⟨before, behind, Document.line_ofText line, column⟩

/-- Five lines, by breaks of each sort, two of them inside of a comment. -/
theorem mixed_breaks_agree :
    let text : Bytes := ascii "/*\r\n\r*/ a\n\rb"
    let word := Lexer.token .identifier (ascii "a") 8 ⟨2, 3⟩
    (lineStarts text).length = 5 ∧ (Document.ofText text).lineCount = (lineStarts text).length ∧
      (∃ inside : 2 < (lineStarts text).length,
        (Document.ofText text).line 2 = .ok (upToBreak (text.drop (lineStarts text)[2]))) ∧
      word ∈ tokenize text ∧ ∃ before behind,
        (Document.ofText text).line word.line = .ok (before ++ upToBreak word.value ++ behind) ∧
          before.length = word.column := by
  intro text word
  have five : (lineStarts text).length = 5 := by decide +kernel
  have inside : 2 < (lineStarts text).length := by omega
  have member : word ∈ tokenize text := by decide +kernel
  obtain ⟨_, count, lines, tokens, _⟩ := line_models_agree text
  exact ⟨five, count, ⟨inside, lines 2 inside⟩, member, (tokens word member).2⟩

end QueryService
