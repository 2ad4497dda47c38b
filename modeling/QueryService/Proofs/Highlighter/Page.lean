import QueryService.Proofs.Highlighter.Effects

/-!
# The page of a highlighter

A highlighter shows the text it read last, cut into tokens and counted in lines. Only a new text changes
that page (`page_update`); every other operation leaves it as it is.
-/

namespace QueryService

/-- A text with its tokens and the number of its lines. -/
structure Page where
  text : Bytes
  tokens : List Token
  lineCount : Nat

def Page.of (text : Bytes) : Page := ⟨text, tokenize text, QueryService.lineCount text⟩

namespace Highlighter

def page (h : Highlighter) : Page := ⟨h.text, h.documentTokens, h.lineCount⟩

theorem page_new (options : HighlighterOptions) (level : LogLevel) : (new options level).page = .of [] := by
  rw [Page.of, QueryService.tokenize, Lexer.tokensFrom_nil]
  rfl

theorem page_noteEvictions (h : Highlighter) (cache : String) (before after : Nat) :
    (h.noteEvictions cache before after).page = h.page := by
  unfold noteEvictions
  split <;> rfl

theorem page_tokenize (h : Highlighter) (code : Bytes) : (h.tokenize code).2.page = h.page := by
  unfold tokenize
  dsimp only
  split
  · rfl
  · exact page_noteEvictions _ _ _ _

theorem page_notes (component : String) (messages : List Bytes) (h : Highlighter) :
    (messages.foldl (fun h message => h.note component message) h).page = h.page :=
  List.foldlRecOn (motive := fun h' : Highlighter => h'.page = h.page) messages _ rfl fun _ same _ _ => same

theorem page_notifyEdit (h : Highlighter) (p : Position) : (h.notifyEdit p).page = h.page := by
  unfold notifyEdit
  split <;> rfl

theorem page_markDirty (h : Highlighter) : h.markDirty.page = h.page :=
  List.foldlRecOn (motive := fun h' : Highlighter => h'.page = h.page) h.statements.entries _ rfl
    fun _ same _ _ => same

theorem page_setCachePolicy (h : Highlighter) (policy : CachePolicy) : (h.setCachePolicy policy).page = h.page := by
  unfold setCachePolicy
  dsimp only
  rw [page_noteEvictions, page_noteEvictions]
  rfl

theorem page_validateEntry (h : Highlighter) (e : Entry) : (h.validateEntry e).2.page = h.page := by
  show (noteEvictions _ _ _ _).page = _
  rw [page_noteEvictions]
  exact (page_notes _ _ _).trans (page_tokenize h e.statement.code)

theorem page_update {h : Highlighter} (faithful : h.tokenCache.Faithful QueryService.tokenize) (text : Bytes) :
    (h.update text).page = .of text := by
  have received : (h.received text).page = .of text := by
    rw [Page.of, ← (tokenize_faithful faithful text).1]
    rfl
  exact List.foldlRecOn (motive := fun h' : Highlighter => h'.page = .of text) (h.received text).statements.entries _
    received fun _ same _ _ => same

end Highlighter
end QueryService
