import QueryService.Proofs.Highlighter.Coherence
import QueryService.Proofs.Highlighter.Page
import QueryService.Proofs.Highlighter.Reachable
import QueryService.Proofs.Statement.Reflection

/-!
# What every history of a highlighter keeps

A highlighter is `Sound` while its caches tell the truth and its statements reflect its text. Every
operation keeps it so and gives no number of an entry to another one (`Reaches.evolves`), which is why a
change that is aimed at an entry from an old list finds that entry or none.
-/

namespace QueryService
namespace Highlighter

variable {σ : Type} {observe : Observer σ} {a : σ} {g h h' : Highlighter} {texts : List Bytes} {e : Entry}

structure Sound (h : Highlighter) : Prop where
  tokens : h.tokenCache.Faithful QueryService.tokenize
  reports : h.resultCache.Faithful reportOn
  statements : h.statements.Reflects h.text

theorem sound_new (options : HighlighterOptions) (level : LogLevel) : (new options level).Sound where
  tokens _ member := by cases member
  reports _ member := by cases member
  statements := by
    have none : Listing.parse 0 [] = (new options level).statements := by
      rw [Listing.parse, Statement.parse_eq_filterMap, segments_nil]
      rfl
    rw [← none]
    exact Listing.reflects_parse 0 []

theorem Sound.mem_parse (sound : h.Sound) {s : Statement} (member : s ∈ h.statements.statements) :
    s.unvalidated ∈ Statement.parse h.text := by
  rw [← sound.statements.parsed]
  exact List.mem_map_of_mem member

/-- The statements follow one another without overlap. -/
theorem Sound.ordered (sound : h.Sound) :
    h.statements.statements.Pairwise fun s later => s.stop ≤ later.start := by
  have ordered := Statement.parse_ordered h.text
  rw [← sound.statements.parsed, List.pairwise_map] at ordered
  exact ordered

/-- What holds of a highlighter that comes after a sound one. -/
structure Evolves (g : Highlighter) (texts : List Bytes) (h : Highlighter) : Prop where
  sound : h.Sound
  follows : g.statements.Follows h.statements
  text : h.text = texts.getLastD g.text

theorem Evolves.refl (sound : h.Sound) : Evolves h [] h := ⟨sound, .refl _, rfl⟩

theorem Evolves.trans {later : List Bytes} {k : Highlighter} (first : Evolves g texts h)
    (second : Evolves h later k) : Evolves g (texts ++ later) k where
  sound := second.sound
  follows := first.follows.trans second.follows
  text := by
    rw [second.text, first.text]
    simp

/-! ### Operations that leave the statements alone -/

/-- The step from `h` to `h'` changes neither the text nor the statements, and what it caches is right. -/
structure Reads (h h' : Highlighter) : Prop where
  text : h'.text = h.text
  statements : h'.statements = h.statements
  tokens : h'.tokenCache.Faithful QueryService.tokenize
  reports : h'.resultCache.Faithful reportOn

theorem Reads.evolves (sound : h.Sound) (reads : Reads h h') : Evolves h [] h' where
  sound := ⟨reads.tokens, reads.reports, by rw [reads.text, reads.statements]; exact sound.statements⟩
  follows := by
    rw [reads.statements]
    exact .refl _
  text := reads.text

theorem reads_tokenize (sound : h.Sound) (code : Bytes) : Reads h (h.tokenize code).2 where
  text := congrArg Page.text (page_tokenize h code)
  statements := (spares_tokenize h code).statements
  tokens := (tokenize_faithful sound.tokens code).2
  reports := by
    rw [(spares_tokenize h code).results]
    exact sound.reports

theorem reads_clearCache (h : Highlighter) : Reads h h.clearCache where
  text := rfl
  statements := rfl
  tokens _ member := by cases member
  reports _ member := by cases member

theorem reads_setCachePolicy (sound : h.Sound) (policy : CachePolicy) : Reads h (h.setCachePolicy policy) := by
  have page := page_setCachePolicy h policy
  unfold setCachePolicy at page ⊢
  dsimp only at page ⊢
  refine ⟨congrArg Page.text page, ?_, ?_, ?_⟩
  · rw [(spares_noteEvictions _ _ _ _).statements, (spares_noteEvictions _ _ _ _).statements]
  · rw [noteEvictions_tokenCache, noteEvictions_tokenCache]
    exact sound.tokens.subset (Cache.evict_subset _)
  · rw [(spares_noteEvictions _ _ _ _).results, (spares_noteEvictions _ _ _ _).results]
    exact sound.reports.subset (Cache.evict_subset _)

/-! ### Operations on an entry -/

/-- The step from `h` to `h'` changes the validity of an entry at most, and what it caches is right. -/
structure Treats (e : Entry) (h h' : Highlighter) : Prop where
  text : h'.text = h.text
  tokens : h'.tokenCache.Faithful QueryService.tokenize
  reports : h'.resultCache.Faithful reportOn
  statements : h'.statements = h.statements ∨
    ∃ s : Statement, s.unvalidated = e.statement.unvalidated ∧ s.Judged ∧
      h'.statements = h.statements.replace e s

theorem Treats.evolves (sound : h.Sound)
    (same : ∀ other ∈ h.statements.entries, other.identity = e.identity → other = e) (treats : Treats e h h') :
    Evolves h [] h' := by
  rcases treats.statements with kept | ⟨s, place, judged, replaced⟩
  · exact Reads.evolves sound ⟨treats.text, kept, treats.tokens, treats.reports⟩
  · refine ⟨⟨treats.tokens, treats.reports, ?_⟩, ?_, treats.text⟩
    · rw [treats.text, replaced]
      exact sound.statements.replace same place judged
    · rw [replaced]
      exact Listing.follows_replace _ e s

/-- A pass over the entries of the list at its start. -/
theorem pass_evolves {step : Highlighter → Entry → Highlighter} (sound : h.Sound)
    (treats : ∀ h' e, h'.Sound → e.statement.Judged → Treats e h' (step h' e)) :
    Evolves h [] (h.statements.entries.foldl step h) := by
  refine List.foldlRecOn (motive := Evolves h []) _ _ (.refl sound) ?_
  intro h' evolved e member
  have judged : e.statement.Judged := sound.statements.judged _ (List.mem_map_of_mem member)
  refine evolved.trans ((treats h' e evolved.sound judged).evolves evolved.sound ?_)
  -- The list has changed since the pass began, but not what has the number of `e`.
  intro other listed number
  exact evolved.follows.same sound.statements.numbered member listed number

theorem known_treats (reports : h.resultCache.Faithful reportOn) {s : Statement} (judged : s.Judged) :
    (h.known s).unvalidated = s.unvalidated ∧ (h.known s).Judged := by
  rw [known_eq reports]
  dsimp only
  split
  · exact ⟨rfl, fun _ => rfl⟩
  · exact ⟨rfl, judged⟩

theorem treats_enroll (sound : h.Sound) (judged : e.statement.Judged) : Treats e h (h.enroll e) where
  text := rfl
  tokens := enroll_faithful sound.tokens e
  reports := sound.reports.get e.statement.code
  statements := by
    have known := known_treats sound.reports judged
    rcases enroll_statements h e with replaced | ⟨kept, _⟩
    · exact Or.inr ⟨_, known.1, known.2, replaced⟩
    · exact Or.inl kept

theorem update_evolves (sound : h.Sound) (text : Bytes) : Evolves h [text] (h.update text) := by
  have read := reads_tokenize sound text
  have received : Evolves h [text] (h.received text) := by
    refine ⟨⟨read.tokens, read.reports, Listing.reflects_parse _ text⟩, ?_, rfl⟩
    show h.statements.Follows (Listing.parse (h.tokenize text).2.statements.fresh text)
    rw [read.statements]
    exact Listing.follows_parse _ text
  have enrolled := pass_evolves received.sound fun h' e sound judged => treats_enroll sound judged
  exact received.trans (enrolled.trans (Reads.evolves enrolled.sound
    ⟨rfl, rfl, enrolled.sound.tokens, enrolled.sound.reports⟩))

theorem markDirty_evolves (sound : h.Sound) : Evolves h [] h.markDirty :=
  pass_evolves sound fun _ e sound _ =>
    { text := rfl
      tokens := sound.tokens
      reports := sound.reports.erase e.statement.code
      statements := Or.inr ⟨soiled e.statement, rfl, nofun, rfl⟩ }

theorem notifyEdit_evolves (sound : h.Sound) (p : Position) : Evolves h [] (h.notifyEdit p) := by
  unfold notifyEdit
  cases found : h.statements.atPosition? p with
  | none => exact .refl sound
  | some e =>
    refine Treats.evolves (e := e) sound ?_
      ⟨rfl, sound.tokens, sound.reports, Or.inr ⟨soiled e.statement, rfl, nofun, rfl⟩⟩
    intro other listed number
    exact (Listing.Follows.refl _).same sound.statements.numbered (Listing.atPosition?_mem found) listed number

theorem treats_validateEntry (sound : h.Sound) (e : Entry) : Treats e h (h.validateEntry e).2 := by
  have validates := validateEntry_spec sound.tokens e
  refine ⟨congrArg Page.text (page_validateEntry h e), validates.faithful, ?_,
    Or.inr ⟨checked e.statement, rfl, fun _ => rfl, validates.statements⟩⟩
  rw [validates.results]
  exact sound.reports.put e.statement.code

/-! ### Validating everything -/

/-- An observer that does nothing as long as its state is `a`. -/
def QuietAt (observe : Observer σ) (a : σ) : Prop := ∀ v h, observe v (a, h) = (a, h)

theorem announce_quiet (quiet : QuietAt observe a) (h : Highlighter) (e : Entry) :
    announce observe (a, h) e = (a, (h.validateEntry e).2) := quiet _ _

theorem checked_eq_self {s : Statement} (judged : s.Judged) (clean : s.dirty = false) : checked s = s := by
  have verdict : (reportOn s.code).valid = s.valid := (judged clean).symm
  rw [checked, verdict, ← clean]

/-- The statement after everything was validated: it is looked at only if it is dirty. -/
theorem validateAll_checks (quiet : QuietAt observe a) (sound : h.Sound) :
    (validateAll observe (a, h)).2.statements.statements = h.statements.statements.map checked := by
  let step (s : σ × Highlighter) (e : Entry) := if e.statement.dirty then announce observe s e else s
  let result (e : Entry) := if e.statement.dirty then checked e.statement else e.statement
  have keeps (s : σ × Highlighter) (e : Entry) (good : s.1 = a ∧ s.2.tokenCache.Faithful QueryService.tokenize) :
      (step s e).1 = a ∧ (step s e).2.tokenCache.Faithful QueryService.tokenize := by
    obtain ⟨_, h'⟩ := s
    obtain ⟨rfl, faithful⟩ := good
    dsimp only [step]
    split
    · rw [announce_quiet quiet]
      exact ⟨rfl, (validateEntry_spec faithful e).faithful⟩
    · exact ⟨rfl, faithful⟩
  have acts (s : σ × Highlighter) (e : Entry) (good : s.1 = a ∧ s.2.tokenCache.Faithful QueryService.tokenize) :
      (step s e).2.statements = s.2.statements.replace e (result e) ∨
        (step s e).2.statements = s.2.statements ∧ result e = e.statement := by
    obtain ⟨_, h'⟩ := s
    obtain ⟨rfl, faithful⟩ := good
    dsimp only [step, result]
    split
    · rw [announce_quiet quiet]
      exact Or.inl (validateEntry_spec faithful e).statements
    · exact Or.inr ⟨rfl, rfl⟩
  have pass := Listing.statements_foldl step (fun s => s.2.statements) _ keeps acts
    (a := (a, { h with scheduler := h.scheduler.cancelKeys })) ⟨rfl, sound.tokens⟩ sound.statements.numbered []
    (List.nil_append h.statements.entries).symm
  unfold validateAll
  dsimp only
  rw [List.foldl_filter, pass.2, List.map_nil, List.nil_append, Listing.statements, List.map_map]
  refine List.map_congr_left fun e member => ?_
  have judged := sound.statements.judged e.statement (List.mem_map_of_mem member)
  dsimp only [result]
  split
  · rfl
  · rename_i clean
    exact (checked_eq_self judged (Bool.eq_false_iff.mpr clean)).symm

/-! ### All histories -/

theorem Reaches.evolves (reached : Reaches g texts h) (sound : g.Sound) : Evolves g texts h := by
  induction reached with
  | refl h => exact .refl sound
  | trans _ _ ih ih' =>
    have first := ih sound
    exact first.trans (ih' first.sound)
  | tokenize h code => exact (reads_tokenize sound code).evolves sound
  | update h text => exact update_evolves sound text
  | notifyEdit h p => exact notifyEdit_evolves sound p
  | markDirty h => exact markDirty_evolves sound
  | clearCache h => exact (reads_clearCache h).evolves sound
  | result h code => exact Reads.evolves sound ⟨rfl, rfl, sound.tokens, sound.reports.get code⟩
  | setCachePolicy h policy => exact (reads_setCachePolicy sound policy).evolves sound
  | validate reached listed ih =>
    -- What is validated was listed in `g`, and the statements may be those of another text by now.
    have evolved := ih sound
    have treated := (treats_validateEntry evolved.sound _).evolves evolved.sound fun other here number =>
      evolved.follows.same sound.statements.numbered listed here number
    have both := evolved.trans treated
    rw [List.append_nil] at both
    exact both
  | schedule h scheduler => exact Reads.evolves sound ⟨rfl, rfl, sound.tokens, sound.reports⟩
  | setTheme h theme => exact Reads.evolves sound ⟨rfl, rfl, sound.tokens, sound.reports⟩
  | setLog h log => exact Reads.evolves sound ⟨rfl, rfl, sound.tokens, sound.reports⟩

theorem Reaches.sound {options : HighlighterOptions} {level : LogLevel}
    (reached : Reaches (new options level) texts h) : h.Sound ∧ h.text = texts.getLastD [] := by
  have evolved := reached.evolves (sound_new options level)
  exact ⟨evolved.sound, evolved.text⟩

/-- After a text came, the clean statements are those whose report is cached. -/
theorem update_clean_iff (sound : h.Sound) (text : Bytes) {s : Statement}
    (member : s ∈ (h.update text).statements.statements) :
    s.dirty = false ↔ (h.update text).resultCache.contains s.code = true := by
  obtain ⟨enrolled, _, statements⟩ := update_spec sound.tokens text
  rw [statements, known_eq sound.reports] at member
  obtain ⟨parsed, listed, rfl⟩ := List.mem_map.mp member
  have contained : ∀ key, (h.update text).resultCache.contains key = h.resultCache.contains key :=
    fun key => congrArg Option.isSome (enrolled.found key)
  rw [contained]
  by_cases cached : h.resultCache.contains parsed.code = true
  · rw [if_pos cached]
    exact iff_of_true rfl cached
  · rw [if_neg cached, (Statement.parse_tokens listed).2]
    exact iff_of_false nofun cached

/-- In every highlighter that a fresh one reaches, the statements are those of the last text but for their
validity, and a clean one has the verdict on its code. -/
theorem statements_reflect_text {options : HighlighterOptions} {level : LogLevel}
    (reached : Reaches (new options level) texts h) :
    h.statements.statements.map Statement.unvalidated = Statement.parse (texts.getLastD []) ∧
      (∀ s ∈ h.statements.statements, s.dirty = false →
        s.valid = (validate (QueryService.tokenize s.code)).valid) ∧
      ∀ text, ∀ s ∈ (h.update text).statements.statements,
        (s.dirty = false ↔ (h.update text).resultCache.contains s.code = true) := by
  obtain ⟨sound, text⟩ := reached.sound
  refine ⟨?_, sound.statements.judged, fun text s member => update_clean_iff sound text member⟩
  rw [← text]
  exact sound.statements.parsed

/-- A callback gives the highlighter a new text in the middle of a pass over the statements of the old one. -/
def rereading : List Session.Command :=
  [.install [.update (ascii " b;")], .update (ascii "a;b;"), .validateAll]

theorem reread_statements_reflect :
    let h := (Session.visit ({}, new {} .off) rereading).2
    ∃ texts, Reaches (new {} .off) texts h ∧ texts.getLastD [] = ascii " b;" ∧
      h.statements.statements.map Statement.unvalidated = Statement.parse (ascii " b;") ∧
      ∃ s ∈ h.statements.statements, s.dirty = false ∧
        s.valid = (validate (QueryService.tokenize s.code)).valid := by
  intro h
  obtain ⟨texts, reached⟩ := Session.visit_reaches ({}, new {} .off) rereading
  have last : texts.getLastD [] = ascii " b;" := by
    rw [← reached.sound.2]
    decide +kernel
  obtain ⟨parsed, judged, _⟩ := statements_reflect_text reached
  have settled : ∃ s ∈ h.statements.statements, s.dirty = false := by decide +kernel
  obtain ⟨s, member, clean⟩ := settled
  exact ⟨texts, reached, last, last ▸ parsed, s, member, clean, judged s member clean⟩

/-- In every highlighter that a fresh one reaches, the caches hold what would be computed without them. -/
theorem caches_transparent {options : HighlighterOptions} {level : LogLevel}
    (reached : Reaches (new options level) texts h) :
    (∀ e ∈ h.tokenCache.entries, e.value = QueryService.tokenize e.key) ∧
      (∀ e ∈ h.resultCache.entries, e.value = validate (QueryService.tokenize e.key)) ∧
      (∀ code, (h.tokenize code).1 = QueryService.tokenize code) ∧
      (∀ code, (h.result code).1 =
        if h.resultCache.contains code then some (validate (QueryService.tokenize code)) else none) ∧
      ∀ s ∈ h.statements.statements, ∀ e ∈ h.tokenCache.entries, e.key = s.code →
        s.tokens = e.value.map (·.within s.start s.first) := by
  obtain ⟨sound, _⟩ := reached.sound
  refine ⟨sound.tokens, sound.reports, fun code => (tokenize_faithful sound.tokens code).1, ?_, ?_⟩
  · intro code
    have looked : (h.result code).1 = (h.resultCache.find? code).map (·.value) := h.resultCache.get_fst code
    rw [looked, Cache.contains]
    cases found : h.resultCache.find? code with
    | none => rfl
    | some e => exact congrArg some (sound.reports.find? found)
  · intro s member e cached same
    have parsed : s.unvalidated ∈ Statement.parse h.text := by
      rw [← sound.statements.parsed]
      exact List.mem_map_of_mem member
    rw [sound.tokens e cached, same]
    exact (Statement.parse_tokens parsed).1

theorem narrowed_caches_transparent :
    let h := (Session.visit ({}, new {} .off) (rereading ++ [.setPolicy ⟨1, 0⟩])).2
    (∃ texts, Reaches (new {} .off) texts h) ∧ h.tokenCache.size = 1 ∧
      (h.tokenize (ascii "a;")).1 = QueryService.tokenize (ascii "a;") ∧
      (h.result (ascii "a;")).1 = none ∧
      (h.result (ascii "b;")).1 = some (validate (QueryService.tokenize (ascii "b;"))) := by
  intro h
  obtain ⟨texts, reached⟩ := Session.visit_reaches ({}, new {} .off) (rereading ++ [.setPolicy ⟨1, 0⟩])
  obtain ⟨_, _, tokens, reports, _⟩ := caches_transparent reached
  have lost : h.resultCache.contains (ascii "a;") = false := by decide +kernel
  have held : h.resultCache.contains (ascii "b;") = true := by decide +kernel
  refine ⟨⟨texts, reached⟩, by decide +kernel, tokens (ascii "a;"), ?_, ?_⟩
  · rw [reports, lost]
    rfl
  · rw [reports, held]
    rfl

end Highlighter
end QueryService
