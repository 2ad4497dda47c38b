import QueryService.Proofs.Grammar.Consistency
import QueryService.Proofs.Highlighter.Spans
import QueryService.Proofs.Statement.Partition

/-!
# Which spans are marked as errors

A failed statement is one that is clean and refused, with its report still in the cache. As long as no
string of the text is left open, the spans of its significant tokens are marked on all its lines, and
besides them only those of unknown tokens (`errors_mark_failures`).
-/

namespace QueryService

namespace Statement

variable {text : Bytes} {s s' : Statement} {t : Token}

/-- An offset is in one of several statements in order at most. -/
theorem unique_of_ordered {items : List Statement} (ordered : items.Pairwise fun s later => s.stop ≤ later.start)
    {i : Nat} (member : s ∈ items) (listed : s' ∈ items) (inside : s.start ≤ i ∧ i < s.stop)
    (inside' : s'.start ≤ i ∧ i < s'.stop) : s = s' := by
  refine List.Pairwise.forall_of_forall_of_flip
    (R := fun s s' => s.start ≤ i ∧ i < s.stop → s'.start ≤ i ∧ i < s'.stop → s = s')
    ?_ (ordered.imp ?_) (ordered.imp ?_) member listed inside inside'
  · exact fun s _ _ _ => rfl
  · intro s s' apart first second
    omega
  · intro s s' apart first second
    omega

/-- The significant tokens of a text that begin in a statement are those of the statement. -/
theorem mem_tokens_iff (terminated : Terminated (tokenize text)) (member : s ∈ parse text) :
    (t ∈ significantTokens s.tokens) ↔
      t ∈ significantTokens (tokenize text) ∧ s.start ≤ t.start ∧ t.start < s.stop := by
  have all := significant_flatMap text terminated
  constructor
  · intro found
    have bounds := token_bounds member (List.mem_filter.mp found).1
    rw [all]
    exact ⟨List.mem_flatMap.mpr ⟨s, member, found⟩, bounds.1, by omega⟩
  · rintro ⟨found, behind, before⟩
    rw [all] at found
    obtain ⟨s', listed, found⟩ := List.mem_flatMap.mp found
    have bounds := token_bounds listed (List.mem_filter.mp found).1
    rwa [unique_of_ordered (parse_ordered text) member listed ⟨behind, before⟩ ⟨bounds.1, by omega⟩]

theorem onLine_of_token (member : s ∈ parse text) (inside : t ∈ s.tokens) : s.onLine t.line = true := by
  have cut := parse_cutFrom member
  have bounds := token_bounds member inside
  have place := congrArg Position.line (cut.places t inside)
  have first := congrArg Position.line cut.first
  have last := congrArg Position.line cut.last
  have stop := cut.inside
  have above := locate_line_mono bounds.1 (Nat.le_trans (by omega) stop)
  have below := locate_line_mono (Nat.le_of_lt (Nat.lt_of_lt_of_le bounds.2.1 bounds.2.2)) stop
  rw [onLine, Bool.and_eq_true, decide_eq_true_eq, decide_eq_true_eq, first, last, Token.line, place]
  exact ⟨above, below⟩

end Statement

namespace Highlighter

variable {h : Highlighter} {texts : List Bytes} {text : Bytes} {s : Statement} {t : Token}

/-- A statement that was validated and refused, with its report still at hand. -/
def Failed (h : Highlighter) (s : Statement) : Prop :=
  s.dirty = false ∧ s.valid = false ∧ h.resultCache.contains s.code = true

/-- A token that is to be marked: an unknown one, or a significant one in a failed statement. -/
def Marked (h : Highlighter) (t : Token) : Prop :=
  t.kind = .unknown ∨ t.isSignificant = true ∧
    ∃ s ∈ h.statements.statements, s.start ≤ t.start ∧ t.stop ≤ s.stop ∧ h.Failed s

/-! ### Statements that fail on a line -/

/-- Whether a statement fails on a line, by the reports in the cache. -/
def fails (h : Highlighter) (line : Nat) (s : Statement) : Bool :=
  s.onLine line && !s.dirty && !s.valid &&
    ((h.resultCache.find? s.code).map (·.value)).any (·.invalidLines.contains (line - s.first.line))

theorem fails_congr {h' : Highlighter} (same : ∀ key, h'.resultCache.find? key = h.resultCache.find? key)
    (line : Nat) : h'.fails line = h.fails line := by
  funext s
  rw [fails, fails, same]

theorem failsOn_spec (h : Highlighter) (s : Statement) (line : Nat) :
    (h.failsOn s line).1 = h.fails line s ∧
      ∀ key, (h.failsOn s line).2.resultCache.find? key = h.resultCache.find? key := by
  unfold failsOn fails
  split
  · rename_i spared
    refine ⟨?_, fun _ => rfl⟩
    rcases Bool.or_eq_true_iff.mp spared with apart | valid
    · rcases Bool.or_eq_true_iff.mp apart with elsewhere | dirty
      · rw [Bool.not_eq_true'] at elsewhere
        rw [elsewhere]; rfl
      · rw [dirty]; simp
    · rw [valid]; simp
  · rename_i tried
    rw [Bool.or_eq_true, Bool.or_eq_true, not_or, not_or, Bool.not_eq_true', Bool.not_eq_false] at tried
    obtain ⟨⟨here, clean⟩, refused⟩ := tried
    refine ⟨?_, fun key => Cache.find?_get h.resultCache key s.code⟩
    rw [here, Bool.eq_false_iff.mpr clean, Bool.eq_false_iff.mpr refused, ← Cache.get_fst]
    rfl

theorem failures_collected (step : List Statement × Highlighter → Entry → List Statement × Highlighter) {line : Nat}
    (collects : ∀ s e, step s e = (if (s.2.failsOn e.statement line).1 then s.1 ++ [e.statement] else s.1,
      (s.2.failsOn e.statement line).2))
    {s : List Statement × Highlighter} (same : ∀ key, s.2.resultCache.find? key = h.resultCache.find? key)
    (entries : List Entry) :
    (entries.foldl step s).1 = s.1 ++ (entries.map (·.statement)).filter (h.fails line) := by
  induction entries generalizing s with
  | nil => exact (List.append_nil s.1).symm
  | cons e entries ih =>
    obtain ⟨verdict, kept⟩ := failsOn_spec s.2 e.statement line
    rw [List.foldl_cons, collects, ih fun key => (kept key).trans (same key), verdict, fails_congr same, List.map_cons,
      List.filter_cons]
    split
    · rw [List.append_assoc]; rfl
    · rfl

theorem failedOn_spec (h : Highlighter) (line : Nat) :
    (h.failedOn line).1 = h.statements.statements.filter (h.fails line) :=
  failures_collected _ (fun _ _ => rfl) (s := ([], h)) (fun _ => rfl) h.statements.entries

/-- The report on a refused statement is about all the lines of its significant tokens. -/
theorem reportOn_invalidLines {code : Bytes} {start : Nat} {first : Position} (refused : (reportOn code).valid = false)
    (inside : t ∈ significantTokens ((QueryService.tokenize code).map (·.within start first))) :
    (reportOn code).invalidLines.contains (t.line - first.line) = true := by
  obtain ⟨found, significant⟩ := List.mem_filter.mp inside
  obtain ⟨own, listed, rfl⟩ := List.mem_map.mp found
  have line : (own.within start first).line - first.line = own.line := by
    show (own.position.within first).line - first.line = own.position.line
    unfold Position.within
    split <;> dsimp only <;> omega
  rw [line, List.contains_iff_mem]
  exact line_mem_invalidLines refused (List.mem_filter.mpr ⟨listed, significant⟩)

/-! ### Statements of a sound highlighter

Its statements have the tokens and places of the parsed ones, whatever their validity. -/

theorem Sound.token_bounds (sound : h.Sound) (member : s ∈ h.statements.statements) (inside : t ∈ s.tokens) :
    s.start ≤ t.start ∧ t.start < t.stop ∧ t.stop ≤ s.stop :=
  Statement.token_bounds (s := s.unvalidated) (sound.mem_parse member) inside

theorem Sound.mem_tokens_iff (sound : h.Sound) (terminated : Terminated (QueryService.tokenize h.text))
    (member : s ∈ h.statements.statements) :
    t ∈ significantTokens s.tokens ↔
      t ∈ significantTokens (QueryService.tokenize h.text) ∧ s.start ≤ t.start ∧ t.start < s.stop :=
  Statement.mem_tokens_iff (s := s.unvalidated) terminated (sound.mem_parse member)

/-- A failed statement fails on every line of its significant tokens. -/
theorem Sound.fails_iff (sound : h.Sound) (member : s ∈ h.statements.statements)
    (inside : t ∈ significantTokens s.tokens) : h.fails t.line s = true ↔ h.Failed s := by
  have parsed := sound.mem_parse member
  have here : s.onLine t.line = true :=
    Statement.onLine_of_token (s := s.unvalidated) parsed (List.mem_filter.mp inside).1
  have tokens : s.tokens = (QueryService.tokenize s.code).map (·.within s.start s.first) :=
    (Statement.parse_tokens parsed).1
  rw [tokens] at inside
  have judged := sound.statements.judged s member
  unfold fails Failed Cache.contains
  cases held : h.resultCache.find? s.code with
  | none => simp
  | some e =>
    rw [here, Option.map_some, Option.any_some, sound.reports.find? held]
    simp only [Bool.true_and, Bool.and_eq_true, Bool.not_eq_true', Option.isSome_some, and_true]
    refine ⟨And.left, fun ⟨clean, refused⟩ => ⟨⟨clean, refused⟩, ?_⟩⟩
    exact reportOn_invalidLines ((judged clean).symm.trans refused) inside

/-- A token that is shown on a line is marked there if it is unknown or its statement failed. -/
theorem Sound.marked_iff (sound : h.Sound) (terminated : Terminated (QueryService.tokenize h.text))
    (listed : t ∈ QueryService.tokenize h.text) {line : Nat} {piece : Nat × Nat}
    (shown : t.pieceOnLine line = some piece) :
    (t.kind == .unknown || t.isSignificant &&
        (h.failedOn line).1.any fun s => s.start ≤ t.start && t.start < s.stop) = true ↔ h.Marked t := by
  rw [Bool.or_eq_true, Bool.and_eq_true, beq_iff_eq, failedOn_spec, List.any_eq_true]
  refine or_congr_right (and_congr_right fun significant => ?_)
  have size : t.start < t.stop := (Lexer.tokensFrom_bounds listed).2.1
  have own : t ∈ significantTokens (QueryService.tokenize h.text) := List.mem_filter.mpr ⟨listed, significant⟩
  rw [significant_line listed significant shown]
  simp only [List.mem_filter, Bool.and_eq_true, decide_eq_true_eq]
  constructor
  · rintro ⟨s, ⟨member, fails⟩, behind, before⟩
    have inside := (sound.mem_tokens_iff terminated member).mpr ⟨own, behind, before⟩
    have bounds := sound.token_bounds member (List.mem_filter.mp inside).1
    exact ⟨s, member, behind, bounds.2.2, (sound.fails_iff member inside).mp fails⟩
  · rintro ⟨s, member, behind, within, failed⟩
    have before := Nat.lt_of_lt_of_le size within
    have inside := (sound.mem_tokens_iff terminated member).mpr ⟨own, behind, before⟩
    exact ⟨s, ⟨member, (sound.fails_iff member inside).mpr failed⟩, behind, before⟩

theorem Sound.marked_iff_failed (sound : h.Sound) (member : s ∈ h.statements.statements)
    (inside : t ∈ significantTokens s.tokens) : h.Marked t ↔ t.kind = .unknown ∨ h.Failed s := by
  obtain ⟨own, significant⟩ := List.mem_filter.mp inside
  have bounds := sound.token_bounds member own
  refine or_congr_right ⟨?_, fun failed => ⟨significant, s, member, bounds.1, bounds.2.2, failed⟩⟩
  rintro ⟨_, s', listed, behind, before, failed⟩
  rwa [Statement.unique_of_ordered (i := t.start) sound.ordered member listed ⟨bounds.1, by omega⟩ ⟨behind, by omega⟩]

/-- In every highlighter that a fresh one reaches, a span is marked as an error if its token is unknown or
belongs to a failed statement, provided that the last text leaves no string open. -/
theorem errors_mark_failures {options : HighlighterOptions} {level : LogLevel}
    (reached : Reaches (new options level) texts h)
    (terminated : Terminated (QueryService.tokenize (texts.getLastD []))) (line : Nat) :
    (h.lineCount ≤ line → (h.lineSpans line).1 = []) ∧
      (line < h.lineCount → ∃ start content, (lineStarts (texts.getLastD []))[line]? = some start ∧
        (Document.ofText (texts.getLastD [])).line line = .ok content ∧
        (∀ span ∈ (h.lineSpans line).1, ∃ t ∈ QueryService.tokenize (texts.getLastD []),
          t.Shown ∧ span.Shows h.theme start content t ∧ (span.error = true ↔ h.Marked t)) ∧
        ∀ t ∈ QueryService.tokenize (texts.getLastD []), t.Shown →
          ∀ column < content.length, t.start ≤ start + column → start + column < t.stop →
            ∃ span ∈ (h.lineSpans line).1,
              span.Covers column ∧ span.Shows h.theme start content t ∧ (span.error = true ↔ h.Marked t)) ∧
      ∀ s ∈ h.statements.statements, ∀ t ∈ significantTokens s.tokens,
        t ∈ QueryService.tokenize (texts.getLastD []) ∧ (h.Marked t ↔ t.kind = .unknown ∨ h.Failed s) := by
  obtain ⟨sound, text⟩ := reached.sound
  have page := reached.page
  rw [← text] at terminated page ⊢
  have count : h.lineCount = QueryService.lineCount h.text := congrArg Page.lineCount page
  have spans := lineSpans_eq page line
  refine ⟨fun beyond => ?_, fun inside => ?_, fun s member t inside => ⟨?_, sound.marked_iff_failed member inside⟩⟩
  · rw [spans, if_pos (count ▸ beyond)]
  · rw [spans, if_neg (Nat.not_le.mpr (count ▸ inside))]
    obtain ⟨start, content, begins, row, line_eq, _⟩ := exists_line (count ▸ inside)
    have error {t : Token} {span : StyledSpan} (listed : t ∈ QueryService.tokenize h.text)
        (made : styled h.theme (h.failedOn line).1 line t = some span) : span.error = true ↔ h.Marked t := by
      obtain ⟨_, piece, _, _, _, error⟩ := styled_eq_some made
      rw [error, sound.marked_iff terminated listed piece]
    refine ⟨start, content, begins, line_eq, ?_, ?_⟩
    · intro span member
      obtain ⟨t, listed, made⟩ := List.mem_filterMap.mp member
      exact ⟨t, listed, (styled_eq_some made).1, shows_of_styled begins row listed made, error listed made⟩
    · intro t listed shown column within after before
      obtain ⟨span, made, covers⟩ :=
        exists_shows begins row listed shown h.theme (h.failedOn line).1 within after before
      exact ⟨span, List.mem_filterMap.mpr ⟨t, listed, made⟩, covers, shows_of_styled begins row listed made,
        error listed made⟩
  · have own := (sound.mem_tokens_iff terminated member).mp inside
    exact (List.mem_filter.mp own.1).1

/-- A refused statement over two lines, behind a valid one and before one that was added later. -/
def surrounded : List Session.Command :=
  [.update (ascii "SHOW USERS; bogus\n1;"), .validateAll, .update (ascii "SHOW USERS; bogus\n1; x@;")]

theorem surrounded_failure_marked :
    let h := (Session.visit ({}, new {} .off) surrounded).2
    let text := ascii "SHOW USERS; bogus\n1; x@;"
    (∃ texts, Reaches (new {} .off) texts h ∧ texts.getLastD [] = text) ∧ Terminated (QueryService.tokenize text) ∧
      1 < h.lineCount ∧
      (∀ span ∈ (h.lineSpans 1).1, ∃ t ∈ QueryService.tokenize text,
        t.Shown ∧ span.Shows h.theme 18 (ascii "1; x@;") t ∧ (span.error = true ↔ h.Marked t)) ∧
      (h.lineSpans 0).1.map (fun span => (span.column, span.error)) =
        [(0, false), (5, false), (10, false), (12, true)] ∧
      (h.lineSpans 1).1.map (fun span => (span.column, span.error)) =
        [(0, true), (1, true), (3, false), (4, true), (5, false)] := by
  intro h text
  obtain ⟨texts, reached⟩ := Session.visit_reaches ({}, new {} .off) surrounded
  have last : texts.getLastD [] = text := by
    rw [← reached.sound.2]
    decide +kernel
  have terminated : Terminated (QueryService.tokenize text) := by
    unfold Terminated
    decide +kernel
  have inside : 1 < h.lineCount := by decide +kernel
  obtain ⟨start, content, begins, row, marked, _⟩ :=
    (errors_mark_failures reached (last.symm ▸ terminated) 1).2.1 inside
  rw [last] at begins row marked
  have start_eq : (lineStarts text)[1]? = some 18 := by decide +kernel
  have row_eq : (Document.ofText text).line 1 = .ok (ascii "1; x@;") := by decide +kernel
  obtain rfl := Option.some.inj (start_eq.symm.trans begins)
  obtain rfl := Except.ok.inj (row_eq.symm.trans row)
  exact ⟨⟨texts, reached, last⟩, terminated, inside, marked, by decide +kernel, by decide +kernel⟩

end Highlighter
end QueryService
