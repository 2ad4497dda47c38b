import QueryService.Highlighter
import QueryService.Proofs.Cache.Recency
import QueryService.Proofs.Statement.Numbering

/-!
# What the operations of a highlighter change

Logging changes nothing that a statement depends on, and the token cache only saves work: as long as it
is `Faithful`, tokens are those of the text. What is left of an operation is what it does to the
statements, to the reports and to the timers.
-/

namespace QueryService

/-- Every cached value is what `value` makes of its key. -/
def Cache.Faithful {α : Type} (c : Cache α) (value : Bytes → α) : Prop :=
  ∀ e ∈ c.entries, e.value = value e.key

namespace Cache.Faithful

variable {α : Type} {c : Cache α} {value : Bytes → α}

theorem get (faithful : c.Faithful value) (key : Bytes) : (c.get key).2.Faithful value :=
  fun e member => faithful e (mem_get member)

theorem put (faithful : c.Faithful value) (key : Bytes) : (c.put key (value key)).Faithful value := by
  intro e member
  rcases mem_put member with rfl | kept
  · rfl
  · exact faithful e kept

theorem subset {c' : Cache α} (faithful : c.Faithful value) (part : c'.entries ⊆ c.entries) : c'.Faithful value :=
  fun e member => faithful e (part member)

theorem erase (faithful : c.Faithful value) (key : Bytes) : (c.erase key).Faithful value := by
  refine faithful.subset ?_
  unfold Cache.erase
  split
  · exact List.Subset.refl _
  · exact List.filter_subset_self _

theorem find? (faithful : c.Faithful value) {key : Bytes} {e : CacheEntry α} (held : c.find? key = some e) :
    e.value = value key := by
  have same : e.key = key := by simpa using List.find?_some held
  rw [faithful e (List.mem_of_find?_eq_some held), same]

end Cache.Faithful

/-- The report on a code by itself. -/
def reportOn (code : Bytes) : Report := validate (tokenize code)

namespace Highlighter

variable {h : Highlighter}

/-- The step from `h` to `h'` leaves statements, reports and timers alone. -/
structure Spares (h h' : Highlighter) : Prop where
  statements : h'.statements = h.statements
  results : h'.resultCache = h.resultCache
  scheduler : h'.scheduler = h.scheduler

theorem Spares.refl (h : Highlighter) : h.Spares h := ⟨rfl, rfl, rfl⟩

theorem Spares.trans {h' h'' : Highlighter} (first : h.Spares h') (second : h'.Spares h'') : h.Spares h'' :=
  ⟨second.statements.trans first.statements, second.results.trans first.results,
    second.scheduler.trans first.scheduler⟩

theorem spares_note (h : Highlighter) (component : String) (message : Bytes) : h.Spares (h.note component message) :=
  ⟨rfl, rfl, rfl⟩

theorem spares_noteEvictions (h : Highlighter) (cache : String) (before after : Nat) :
    h.Spares (h.noteEvictions cache before after) := by
  unfold noteEvictions
  split
  · exact Spares.refl h
  · exact spares_note h _ _

theorem noteEvictions_tokenCache (h : Highlighter) (cache : String) (before after : Nat) :
    (h.noteEvictions cache before after).tokenCache = h.tokenCache := by
  unfold noteEvictions
  split <;> rfl

theorem spares_tokenize (h : Highlighter) (code : Bytes) : h.Spares (h.tokenize code).2 := by
  unfold tokenize
  dsimp only
  split
  · exact ⟨rfl, rfl, rfl⟩
  · rename_i cache _
    have cached : h.Spares { h with tokenCache := cache.put code (QueryService.tokenize code) } := ⟨rfl, rfl, rfl⟩
    exact cached.trans (spares_noteEvictions _ _ _ _)

theorem tokenize_faithful (faithful : h.tokenCache.Faithful QueryService.tokenize) (code : Bytes) :
    (h.tokenize code).1 = QueryService.tokenize code ∧ (h.tokenize code).2.tokenCache.Faithful QueryService.tokenize := by
  have kept := faithful.get code
  unfold tokenize
  dsimp only
  split
  · rename_i tokens cache found
    have looked : (h.tokenCache.get code).1 = some tokens := congrArg Prod.fst found
    rw [found] at kept
    rw [Cache.get_fst] at looked
    obtain ⟨e, held, rfl⟩ := Option.map_eq_some_iff.mp looked
    exact ⟨faithful.find? held, kept⟩
  · rename_i cache found
    rw [found] at kept
    refine ⟨rfl, ?_⟩
    rw [noteEvictions_tokenCache]
    exact kept.put code

/-! ### New texts -/

/-- A statement as it is taken over: clean, with the verdict of its report, if a report is cached. -/
def known (h : Highlighter) (s : Statement) : Statement :=
  match (h.resultCache.find? s.code).map (·.value) with
  | none => s
  | some report => { s with dirty := false, valid := report.valid }

theorem known_congr {h' : Highlighter} (same : ∀ key, h'.resultCache.find? key = h.resultCache.find? key) :
    h'.known = h.known := by
  funext s
  rw [known, known, same]

theorem enroll_statements (h : Highlighter) (e : Entry) :
    (h.enroll e).statements = h.statements.replace e (h.known e.statement) ∨
      (h.enroll e).statements = h.statements ∧ h.known e.statement = e.statement := by
  have looked := h.resultCache.get_fst e.statement.code
  unfold known enroll
  dsimp only
  rw [← looked]
  cases (h.resultCache.get e.statement.code).1 with
  | none => exact Or.inr ⟨rfl, rfl⟩
  | some report => exact Or.inl rfl

theorem enroll_results (h : Highlighter) (e : Entry) :
    (h.enroll e).resultCache = (h.resultCache.get e.statement.code).2 := rfl

theorem enroll_faithful (faithful : h.tokenCache.Faithful QueryService.tokenize) (e : Entry) :
    (h.enroll e).tokenCache.Faithful QueryService.tokenize := by
  unfold enroll
  dsimp only
  split
  · exact faithful
  · exact faithful.put e.statement.code

/-- What holds of a highlighter after some statements were enrolled in it. -/
structure Enrolled (h h' : Highlighter) : Prop where
  found : ∀ key, h'.resultCache.find? key = h.resultCache.find? key
  scheduler : h'.scheduler = h.scheduler
  faithful : h'.tokenCache.Faithful QueryService.tokenize

theorem Enrolled.step {h' : Highlighter} (enrolled : h.Enrolled h') (e : Entry) : h.Enrolled (h'.enroll e) where
  found key := by rw [enroll_results, Cache.find?_get, enrolled.found]
  scheduler := enrolled.scheduler
  faithful := enroll_faithful enrolled.faithful e

/-- The highlighter with the statements of a text, before they are enrolled. -/
def received (h : Highlighter) (text : Bytes) : Highlighter :=
  let (documentTokens, h) := h.tokenize text
  { h with
    text, documentTokens
    lineCount := QueryService.lineCount text
    statements := Listing.parse h.statements.fresh text }

theorem spares_update (h : Highlighter) (text : Bytes) :
    ((h.received text).statements.entries.foldl enroll (h.received text)).Spares (h.update text) :=
  spares_note _ _ _

theorem update_results {P : Cache Report → Prop} (keeps : ∀ c key, P c → P (c.get key).2) (text : Bytes)
    (holds : P h.resultCache) : P (h.update text).resultCache := by
  rw [(spares_update h text).results]
  refine List.foldlRecOn (motive := fun h' : Highlighter => P h'.resultCache) _ _ ?_ ?_
  · exact (spares_tokenize h text).results ▸ holds
  · intro h' holds e _
    exact keeps _ _ holds

theorem update_spec (faithful : h.tokenCache.Faithful QueryService.tokenize) (text : Bytes) :
    h.Enrolled (h.update text) ∧ (h.update text).statements.Numbered ∧
      (h.update text).statements.statements = (Statement.parse text).map h.known := by
  have spared := spares_tokenize h text
  have first : h.Enrolled (h.received text) :=
    ⟨fun key => congrArg (·.find? key) spared.results, spared.scheduler, (tokenize_faithful faithful text).2⟩
  have last := List.foldlRecOn (motive := h.Enrolled) (h.received text).statements.entries enroll first
    fun h' enrolled e _ => enrolled.step e
  have pass := Listing.statements_foldl enroll Highlighter.statements h.Enrolled
    (fun h' e enrolled => enrolled.step e)
    (fun h' e enrolled => known_congr enrolled.found ▸ enroll_statements h' e)
    first (Listing.numbered_parse _ text) [] (List.nil_append (h.received text).statements.entries).symm
  have same := spares_update h text
  refine ⟨⟨fun key => ?_, ?_, last.faithful⟩, ?_, ?_⟩
  · rw [same.results, last.found]
  · rw [same.scheduler, last.scheduler]
  · rw [same.statements]
    exact pass.1
  · rw [same.statements]
    have parsed : (h.received text).statements.statements = Statement.parse text := Listing.statements_parse _ text
    rw [pass.2, ← parsed, Listing.statements, List.map_map]
    rfl

/-! ### Validation -/

/-- A statement after its validation. -/
def checked (s : Statement) : Statement := { s with dirty := false, valid := (reportOn s.code).valid }

/-- What a validation of `e` changes. -/
structure Validates (e : Entry) (h h' : Highlighter) : Prop where
  statements : h'.statements = h.statements.replace e (checked e.statement)
  results : h'.resultCache =
    h.resultCache.put e.statement.code (reportOn e.statement.code)
  scheduler : h'.scheduler = h.scheduler
  faithful : h'.tokenCache.Faithful QueryService.tokenize

theorem spares_notes (component : String) (messages : List Bytes) (h : Highlighter) :
    h.Spares (messages.foldl (fun h message => h.note component message) h) :=
  List.foldlRecOn (motive := h.Spares) messages _ (Spares.refl h)
    fun h' spared message _ => spared.trans (spares_note h' component message)

theorem notes_tokenCache (component : String) (messages : List Bytes) (h : Highlighter) :
    (messages.foldl (fun h message => h.note component message) h).tokenCache = h.tokenCache :=
  List.foldlRecOn (motive := fun h' : Highlighter => h'.tokenCache = h.tokenCache) messages _ rfl
    fun _ same _ _ => same

theorem validateEntry_spec (faithful : h.tokenCache.Faithful QueryService.tokenize) (e : Entry) :
    Validates e h (h.validateEntry e).2 := by
  obtain ⟨tokens, kept⟩ := tokenize_faithful faithful e.statement.code
  have spared := spares_tokenize h e.statement.code
  have noted := spared.trans
    (spares_notes "grammar" (validationTrace (QueryService.tokenize e.statement.code)) (h.tokenize e.statement.code).2)
  have cache := notes_tokenCache "grammar" (validationTrace (QueryService.tokenize e.statement.code))
    (h.tokenize e.statement.code).2
  unfold validateEntry
  dsimp only
  rw [tokens]
  generalize (validationTrace (QueryService.tokenize e.statement.code)).foldl
    (fun h message => h.note "grammar" message) (h.tokenize e.statement.code).2 = h' at noted cache
  refine ⟨?_, ?_, ?_, ?_⟩
  · show (noteEvictions _ _ _ _).statements.markClean (some e) _ = _
    rw [(spares_noteEvictions _ _ _ _).statements]
    exact congrArg (Listing.replace · e (checked e.statement)) noted.statements
  · show (noteEvictions _ _ _ _).resultCache = _
    rw [(spares_noteEvictions _ _ _ _).results]
    exact congrArg (Cache.put · e.statement.code _) noted.results
  · show (noteEvictions _ _ _ _).scheduler = _
    rw [(spares_noteEvictions _ _ _ _).scheduler]
    exact noted.scheduler
  · show (noteEvictions _ _ _ _).tokenCache.Faithful QueryService.tokenize
    rw [noteEvictions_tokenCache]
    exact cache ▸ kept

end Highlighter
end QueryService
