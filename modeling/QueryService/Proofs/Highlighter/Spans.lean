import QueryService.Proofs.Highlighter.Soundness
import QueryService.Proofs.Token.Parts

/-!
# Spans as tiles of a line

The spans of a line are the parts of the tokens on it, in order and without overlap (`spans_tile_line`).
They leave out what is blank and nothing else: a comment over several lines has its part on each of them.
-/

namespace QueryService

/-- A token that is to be seen: anything but white space and line breaks. -/
def Token.Shown (t : Token) : Prop := t.kind ≠ .whitespace ∧ t.kind ≠ .newline

/-- The columns of a span. -/
def StyledSpan.Covers (span : StyledSpan) (column : Nat) : Prop :=
  span.column ≤ column ∧ column < span.column + span.length

/-- The span is what a token covers of the line that begins at `start` with this content, in the color of
the token. -/
structure StyledSpan.Shows (theme : Theme) (start : Nat) (content : Bytes) (t : Token) (span : StyledSpan) :
    Prop where
  columns : ∀ column, span.Covers column ↔
    column < content.length ∧ t.start ≤ start + column ∧ start + column < t.stop
  category : span.category = .ofKind t.kind
  color : span.color = theme.color (.ofKind t.kind)

/-- The spans lie on the line that begins at `start` with this content, from left to right, and show all
that the tokens cover of it but for its blanks. -/
structure TilesLine (theme : Theme) (tokens : List Token) (start : Nat) (content : Bytes) (spans : List StyledSpan) :
    Prop where
  ordered : spans.Pairwise fun span later => span.column < later.column
  apart : spans.Pairwise fun span later => span.column + span.length ≤ later.column
  inhabited : ∀ span ∈ spans, 0 < span.length
  inside : ∀ span ∈ spans, span.column + span.length ≤ content.length
  sound : ∀ span ∈ spans, ∃ t ∈ tokens, t.Shown ∧ span.Shows theme start content t
  complete : ∀ t ∈ tokens, t.Shown →
    ∀ column < content.length, t.start ≤ start + column → start + column < t.stop →
      ∃ span ∈ spans, span.Covers column ∧ span.Shows theme start content t

namespace Highlighter

variable {g h : Highlighter} {texts : List Bytes} {theme : Theme} {failed : List Statement} {line start : Nat}
  {text content : Bytes} {t : Token} {span : StyledSpan}

/-! ### What is shown -/

theorem Reaches.page_of (reached : Reaches g texts h) (sound : g.Sound) (page : g.page = .of text) :
    h.page = .of (texts.getLastD text) := by
  induction reached generalizing text with
  | refl h => exact page
  | trans first _ ih ih' =>
    rw [ih' (first.evolves sound).sound (ih sound page)]
    simp
  | tokenize h code => exact (page_tokenize h code).trans page
  | update h later => exact page_update sound.tokens later
  | notifyEdit h p => exact (page_notifyEdit h p).trans page
  | markDirty h => exact (page_markDirty h).trans page
  | clearCache h => exact page
  | result h code => exact page
  | setCachePolicy h policy => exact (page_setCachePolicy h policy).trans page
  | validate _ _ ih => exact (page_validateEntry _ _).trans (ih sound page)
  | schedule h scheduler => exact page
  | setTheme h theme => exact page
  | setLog h log => exact page

theorem Reaches.page {options : HighlighterOptions} {level : LogLevel} (reached : Reaches (new options level) texts h) :
    h.page = .of (texts.getLastD []) :=
  reached.page_of (sound_new options level) (page_new options level)

theorem failsOn_frame (h : Highlighter) (s : Statement) (line : Nat) :
    (h.failsOn s line).2.page = h.page ∧ (h.failsOn s line).2.theme = h.theme := by
  unfold failsOn
  split <;> exact ⟨rfl, rfl⟩

theorem failedOn_frame (h : Highlighter) (line : Nat) :
    (h.failedOn line).2.page = h.page ∧ (h.failedOn line).2.theme = h.theme := by
  refine List.foldlRecOn (motive := fun s : List Statement × Highlighter => s.2.page = h.page ∧ s.2.theme = h.theme)
    _ _ ⟨rfl, rfl⟩ ?_
  intro s kept e _
  have frame := failsOn_frame s.2 e.statement line
  exact ⟨frame.1.trans kept.1, frame.2.trans kept.2⟩

theorem lineSpans_eq (page : h.page = .of text) (line : Nat) :
    (h.lineSpans line).1 =
      if QueryService.lineCount text ≤ line then []
      else (QueryService.tokenize text).filterMap (styled h.theme (h.failedOn line).1 line) := by
  obtain ⟨same, theme⟩ := failedOn_frame h line
  have tokens : (h.failedOn line).2.documentTokens = QueryService.tokenize text :=
    congrArg Page.tokens (same.trans page)
  have count : h.lineCount = QueryService.lineCount text := congrArg Page.lineCount page
  unfold lineSpans
  rw [count]
  split
  · rfl
  · dsimp only
    rw [tokens, theme]

/-! ### The spans of a line -/

theorem styled_eq_some (made : styled theme failed line t = some span) :
    t.Shown ∧ t.pieceOnLine line = some (span.column, span.length) ∧ 0 < span.length ∧
      span.category = .ofKind t.kind ∧ span.color = theme.color (.ofKind t.kind) ∧
      span.error = (t.kind == .unknown ||
        t.isSignificant && failed.any fun s => s.start ≤ t.start && t.start < s.stop) := by
  unfold styled at made
  split at made
  · cases made
  · rename_i shown
    split at made
    · cases made
    · cases made
    · rename_i column length filled piece
      obtain rfl := Option.some.inj made
      exact ⟨not_or.mp shown, piece, Nat.pos_of_ne_zero filled, rfl, rfl, rfl⟩

theorem exists_styled {piece : Nat × Nat} (theme : Theme) (failed : List Statement) (shown : t.Shown)
    (found : t.pieceOnLine line = some piece) (filled : 0 < piece.2) :
    ∃ span, styled theme failed line t = some span ∧ span.column = piece.1 ∧ span.length = piece.2 := by
  obtain ⟨column, length⟩ := piece
  obtain ⟨length, rfl⟩ := Nat.exists_eq_succ_of_ne_zero (Nat.ne_of_gt filled)
  unfold styled
  rw [if_neg (not_or.mpr shown), found]
  exact ⟨_, rfl, rfl, rfl⟩

/-- A token and the span made of it stand at the same columns. -/
theorem shows_of_styled (begins : (lineStarts text)[line]? = some start)
    (row : (splitLines text)[line]? = some content) (member : t ∈ QueryService.tokenize text)
    (made : styled theme failed line t = some span) : span.Shows theme start content t := by
  obtain ⟨_, piece, _, category, color, _⟩ := styled_eq_some made
  refine ⟨fun column => ?_, category, color⟩
  rw [← column_iff begins row, ← pieceOnLine_iff member, piece]
  simp [StyledSpan.Covers]

theorem exists_shows (begins : (lineStarts text)[line]? = some start)
    (row : (splitLines text)[line]? = some content) (member : t ∈ QueryService.tokenize text) (shown : t.Shown)
    (theme : Theme) (failed : List Statement) {column : Nat} (inside : column < content.length)
    (after : t.start ≤ start + column) (before : start + column < t.stop) :
    ∃ span, styled theme failed line t = some span ∧ span.Covers column := by
  obtain ⟨piece, found, covers⟩ := (pieceOnLine_iff member).mpr ((column_iff begins row).mpr ⟨inside, after, before⟩)
  obtain ⟨span, made, left, width⟩ := exists_styled theme failed shown found (by omega)
  refine ⟨span, made, ?_⟩
  rw [StyledSpan.Covers, left, width]
  exact covers

theorem tilesLine_tokenize (theme : Theme) (failed : List Statement) (begins : (lineStarts text)[line]? = some start)
    (row : (splitLines text)[line]? = some content) :
    TilesLine theme (QueryService.tokenize text) start content
      ((QueryService.tokenize text).filterMap (styled theme failed line)) := by
  have filled {span : StyledSpan}
      (member : span ∈ (QueryService.tokenize text).filterMap (styled theme failed line)) :
      ∃ t ∈ QueryService.tokenize text, t.Shown ∧ 0 < span.length ∧ span.Shows theme start content t := by
    obtain ⟨t, listed, made⟩ := List.mem_filterMap.mp member
    obtain ⟨shown, _, filled, _⟩ := styled_eq_some made
    exact ⟨t, listed, shown, filled, shows_of_styled begins row listed made⟩
  have apart : ((QueryService.tokenize text).filterMap (styled theme failed line)).Pairwise
      fun span later => 0 < span.length ∧ span.column + span.length ≤ later.column := by
    rw [List.pairwise_filterMap]
    refine (Lexer.tokensFrom_ordered 0 {} text).imp_of_mem ?_
    intro t u member member' ordered span made later made'
    obtain ⟨_, _, filled, _⟩ := styled_eq_some made
    obtain ⟨_, _, filled', _⟩ := styled_eq_some made'
    have final := ((shows_of_styled begins row member made).columns (span.column + span.length - 1)).mp
      ⟨by omega, by omega⟩
    have first := ((shows_of_styled begins row member' made').columns later.column).mp ⟨by omega, by omega⟩
    omega
  refine ⟨apart.imp fun between => by omega, apart.imp And.right, ?_, ?_, ?_, ?_⟩
  · intro span member
    obtain ⟨t, _, _, filled, _⟩ := filled member
    exact filled
  · intro span member
    obtain ⟨t, _, _, filled, shows⟩ := filled member
    have final := (shows.columns (span.column + span.length - 1)).mp ⟨by omega, by omega⟩
    omega
  · intro span member
    obtain ⟨t, listed, shown, _, shows⟩ := filled member
    exact ⟨t, listed, shown, shows⟩
  · intro t listed shown column inside after before
    obtain ⟨span, made, covers⟩ := exists_shows begins row listed shown theme failed inside after before
    exact ⟨span, List.mem_filterMap.mpr ⟨t, listed, made⟩, covers, shows_of_styled begins row listed made⟩

theorem exists_line (inside : line < QueryService.lineCount text) :
    ∃ start content, (lineStarts text)[line]? = some start ∧ (splitLines text)[line]? = some content ∧
      (Document.ofText text).line line = .ok content ∧ content <+: text.drop start := by
  rw [lineCount_eq_length, splitLines_eq_map, List.length_map] at inside
  have begins := List.getElem?_eq_getElem inside
  have row : (splitLines text)[line]? = some (upToBreak (text.drop (lineStarts text)[line])) := by
    rw [splitLines_eq_map, List.getElem?_map, begins]
    rfl
  exact ⟨_, _, begins, row, Document.line_ofText row, List.takeWhile_prefix _⟩

/-- In every highlighter that a fresh one reaches, the spans of a line tile that line of the last text. -/
theorem spans_tile_line {options : HighlighterOptions} {level : LogLevel}
    (reached : Reaches (new options level) texts h) (line : Nat) :
    (h.lineCount ≤ line → (h.lineSpans line).1 = []) ∧
      (line < h.lineCount → ∃ start content, (lineStarts (texts.getLastD []))[line]? = some start ∧
        (Document.ofText (texts.getLastD [])).line line = .ok content ∧
        content <+: (texts.getLastD []).drop start ∧
        TilesLine h.theme (QueryService.tokenize (texts.getLastD [])) start content (h.lineSpans line).1) := by
  generalize last : texts.getLastD [] = text
  have page : h.page = .of text := last ▸ reached.page
  have count : h.lineCount = QueryService.lineCount text := congrArg Page.lineCount page
  have spans := lineSpans_eq page line
  rw [count]
  constructor
  · intro beyond
    rw [spans, if_pos beyond]
  · intro inside
    rw [spans, if_neg (Nat.not_le.mpr inside)]
    obtain ⟨start, content, begins, row, line_eq, own⟩ := exists_line inside
    exact ⟨start, content, begins, line_eq, own, tilesLine_tokenize _ _ begins row⟩

/-- The second of two lines, where a comment from the first one ends and a string is left open. -/
def overlapping : List Session.Command :=
  [.update (ascii "a; /* b\r\nc */ 'd \n"), .validateAll]

theorem comment_tail_tiled :
    let h := (Session.visit ({}, new {} .off) overlapping).2
    (∃ texts, Reaches (new {} .off) texts h) ∧ 1 < h.lineCount ∧
      TilesLine h.theme (QueryService.tokenize (ascii "a; /* b\r\nc */ 'd \n")) 9 (ascii "c */ 'd ") (h.lineSpans 1).1 ∧
      (h.lineSpans 1).1.map (fun span => (span.column, span.length)) = [(0, 4), (5, 3)] ∧
      h.lineCount ≤ 3 ∧ (h.lineSpans 3).1 = [] := by
  intro h
  obtain ⟨texts, reached⟩ := Session.visit_reaches ({}, new {} .off) overlapping
  have last : texts.getLastD [] = ascii "a; /* b\r\nc */ 'd \n" := by
    rw [← reached.sound.2]
    decide +kernel
  have inside : 1 < h.lineCount := by decide +kernel
  have beyond : h.lineCount ≤ 3 := by decide +kernel
  obtain ⟨start, content, begins, row, _, tiles⟩ := (spans_tile_line reached 1).2 inside
  rw [last] at begins row tiles
  have start_eq : (lineStarts (ascii "a; /* b\r\nc */ 'd \n"))[1]? = some 9 := by decide +kernel
  have row_eq : (Document.ofText (ascii "a; /* b\r\nc */ 'd \n")).line 1 = .ok (ascii "c */ 'd ") := by decide +kernel
  obtain rfl := Option.some.inj (start_eq.symm.trans begins)
  obtain rfl := Except.ok.inj (row_eq.symm.trans row)
  exact ⟨⟨texts, reached⟩, inside, tiles, by decide +kernel, beyond, (spans_tile_line reached 3).1 beyond⟩

end Highlighter
end QueryService
