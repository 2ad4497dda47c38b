import QueryService.Highlighter.Session
import QueryService.Proofs.Statement.Pointing

/-!
# Reachable highlighters

Operations lead from one highlighter to another, whoever carries them out: an observer may do so in the
middle of a validation, and what is validated after that comes from an old list. `Reaches` allows for all
this, and every command of a session, with its callbacks, stays within it (`perform_reaches`).
-/

namespace QueryService
namespace Highlighter

/-- Operations lead from `g` to `h`, and `texts` are what the updates among them read. An entry may be
validated if it was listed once, and timers and the clock are set at will. -/
inductive Reaches : Highlighter → List Bytes → Highlighter → Prop where
  | refl (h : Highlighter) : Reaches h [] h
  | trans {g h k : Highlighter} {texts later : List Bytes} (first : Reaches g texts h)
    (second : Reaches h later k) : Reaches g (texts ++ later) k
  | tokenize (h : Highlighter) (code : Bytes) : Reaches h [] (h.tokenize code).2
  | update (h : Highlighter) (text : Bytes) : Reaches h [text] (h.update text)
  | notifyEdit (h : Highlighter) (p : Position) : Reaches h [] (h.notifyEdit p)
  | markDirty (h : Highlighter) : Reaches h [] h.markDirty
  | clearCache (h : Highlighter) : Reaches h [] h.clearCache
  | result (h : Highlighter) (code : Bytes) : Reaches h [] (h.result code).2
  | setCachePolicy (h : Highlighter) (policy : CachePolicy) : Reaches h [] (h.setCachePolicy policy)
  | validate {g h : Highlighter} {texts : List Bytes} {e : Entry} (reached : Reaches g texts h)
    (listed : e ∈ g.statements.entries) : Reaches g texts (h.validateEntry e).2
  | schedule (h : Highlighter) (scheduler : Scheduler Nat Position) : Reaches h [] { h with scheduler }
  | setTheme (h : Highlighter) (theme : Theme) : Reaches h [] { h with theme }
  | setLog (h : Highlighter) (log : Log) : Reaches h [] { h with log }

variable {σ : Type} {observe : Observer σ} {g h : Highlighter} {texts : List Bytes}

/-- An observer that does to the highlighter what operations do, whenever it is told in one that `g` reaches. -/
def LawfulFrom (g : Highlighter) (observe : Observer σ) : Prop :=
  ∀ v s, (∃ texts, Reaches g texts s.2) → ∃ texts, Reaches g texts (observe v s).2

def Lawful (observe : Observer σ) : Prop := ∀ v s, ∃ texts, Reaches s.2 texts (observe v s).2

theorem Lawful.from (lawful : Lawful observe) (g : Highlighter) : LawfulFrom g observe := by
  rintro v s ⟨texts, reached⟩
  obtain ⟨later, told⟩ := lawful v s
  exact ⟨texts ++ later, reached.trans told⟩

namespace Reaches

/-! ### Reading -/

theorem diagnosticsOf (h : Highlighter) (s : Statement) : Reaches h [] (h.diagnosticsOf s).2 := by
  have looked := Reaches.result h s.code
  unfold Highlighter.diagnosticsOf
  split
  · rename_i found
    rw [found] at looked
    exact looked
  · rename_i found
    rw [found] at looked
    exact looked.trans (.tokenize _ _)

theorem diagnostics (h : Highlighter) : Reaches h [] h.diagnostics.2 :=
  List.foldlRecOn (motive := fun t : List Diagnostic × Highlighter => Reaches h [] t.2) _ _ (.refl h)
    fun t reached e _ => reached.trans (diagnosticsOf t.2 e.statement)

theorem failsOn (h : Highlighter) (s : Statement) (line : Nat) : Reaches h [] (h.failsOn s line).2 := by
  unfold Highlighter.failsOn
  split
  · exact .refl h
  · exact .result h s.code

theorem lineSpans (h : Highlighter) (line : Nat) : Reaches h [] (h.lineSpans line).2 := by
  unfold Highlighter.lineSpans
  split
  · exact .refl h
  · exact List.foldlRecOn (motive := fun t : List Statement × Highlighter => Reaches h [] t.2) _ _ (.refl h)
      fun t reached e _ => reached.trans (failsOn t.2 e.statement line)

/-! ### Validation -/

theorem validateAll (s : σ × Highlighter) (lawful : LawfulFrom s.2 observe) :
    ∃ texts, Reaches s.2 texts (validateAll observe s).2 := by
  refine List.foldlRecOn (motive := fun t : σ × Highlighter => ∃ texts, Reaches s.2 texts t.2) _ _
    ⟨[], .schedule s.2 _⟩ ?_
  rintro t ⟨texts, reached⟩ e member
  -- The entry is from the list at the start, whatever is listed by now.
  exact lawful _ _ ⟨texts, .validate reached (List.mem_of_mem_filter member)⟩

theorem validateAt (s : σ × Highlighter) (lawful : LawfulFrom g observe) (reached : Reaches g texts s.2)
    (p : Position) : ∃ texts, Reaches g texts (validateAt observe s p).2 := by
  unfold Highlighter.validateAt
  cases found : s.2.statements.atPosition? p with
  | none => exact ⟨texts, reached⟩
  | some e =>
    have listed := Listing.atPosition?_mem found
    dsimp only
    split
    · exact lawful _ _ ⟨_, reached.trans (.validate (.refl s.2) listed)⟩
    · exact ⟨texts, reached⟩

theorem fire (s : Nat × σ × Highlighter) (lawful : LawfulFrom g observe) (reached : Reaches g texts s.2.2)
    (id : Nat) : ∃ texts, Reaches g texts (fire observe s id).2.2 := by
  unfold Highlighter.fire
  dsimp only
  cases s.2.2.scheduler.take id with
  | none => exact ⟨texts, reached⟩
  | some pair => exact validateAt _ lawful (reached.trans (.schedule s.2.2 pair.2)) pair.1

theorem runDue (s : σ × Highlighter) (lawful : LawfulFrom s.2 observe) :
    ∃ texts, Reaches s.2 texts (runDue observe s).2.2 :=
  List.foldlRecOn (motive := fun t : Nat × σ × Highlighter => ∃ texts, Reaches s.2 texts t.2.2) _ _
    ⟨[], .refl s.2⟩ fun t reached id _ => reached.elim fun _ reached => fire t lawful reached id

end Reaches
end Highlighter

/-! ### Sessions -/

namespace Session

open Highlighter

theorem perform_reaches {observe : Observer Client} (lawful : Lawful observe) (s : Client × Highlighter)
    (command : Command) : ∃ texts, Reaches s.2 texts (perform observe s command).1.2 := by
  cases command with
  | tokenize text => exact ⟨[], .tokenize s.2 text⟩
  | update text => exact ⟨[text], .update s.2 text⟩
  | edit place => exact ⟨[], .notifyEdit s.2 place⟩
  | document command =>
    unfold perform
    dsimp only
    split
    · exact ⟨[], .refl s.2⟩
    · exact ⟨_, .trans (.update s.2 _) (.notifyEdit _ _)⟩
  | markDirty => exact ⟨[], .markDirty s.2⟩
  | clearCache => exact ⟨[], .clearCache s.2⟩
  | validateAll => exact Reaches.validateAll s (lawful.from s.2)
  | result code => exact ⟨[], .result s.2 code⟩
  | diagnostics => exact ⟨[], .diagnostics s.2⟩
  | diagnosticsOf index =>
    unfold perform
    dsimp only
    split
    · exact ⟨[], .refl s.2⟩
    · exact ⟨[], .diagnosticsOf s.2 _⟩
  | spans line => exact ⟨[], .lineSpans s.2 line⟩
  | setColor name color =>
    unfold perform
    dsimp only
    split
    · exact ⟨[], .refl s.2⟩
    · exact ⟨[], .setTheme s.2 _⟩
  | setPolicy policy => exact ⟨[], .setCachePolicy s.2 policy⟩
  | setDebounce delay => exact ⟨[], .schedule s.2 _⟩
  | setClock time => exact ⟨[], .schedule s.2 _⟩
  | run => exact Reaches.runDue s (lawful.from s.2)
  | lineCount => exact ⟨[], .refl s.2⟩
  | nextDeadline => exact ⟨[], .refl s.2⟩
  | caches => exact ⟨[], .refl s.2⟩
  | cached code => exact ⟨[], .refl s.2⟩
  | install body => exact ⟨[], .refl s.2⟩
  | uninstall => exact ⟨[], .refl s.2⟩

theorem performs_reach {perform : Client × Highlighter → Command → Client × Highlighter}
    (reaches : ∀ s command, ∃ texts, Reaches s.2 texts (perform s command).2) (s : Client × Highlighter)
    (commands : List Command) : ∃ texts, Reaches s.2 texts (commands.foldl perform s).2 := by
  refine List.foldlRecOn (motive := fun t : Client × Highlighter => ∃ texts, Reaches s.2 texts t.2) _ _
    ⟨[], .refl s.2⟩ ?_
  rintro t ⟨texts, reached⟩ command _
  obtain ⟨later, performed⟩ := reaches t command
  exact ⟨texts ++ later, reached.trans performed⟩

/-- A callback is an observer that keeps to the operations, however deep it is told. -/
theorem observer_lawful (depth : Nat) : Lawful (observer depth) := by
  induction depth with
  | zero =>
    intro v s
    unfold observer
    split <;> exact ⟨[], .refl s.2⟩
  | succ depth ih =>
    intro v s
    unfold observer
    split
    · exact ⟨[], .refl s.2⟩
    · rename_i body _
      exact performs_reach (perform_reaches ih) (record v s.1, s.2) body

theorem step_reaches (s : Client × Highlighter) (command : Command) :
    ∃ texts, Reaches s.2 texts (step s command).1.2 := by
  obtain ⟨texts, performed⟩ := perform_reaches (observer_lawful 1)
    ({ s.1 with validated := [] }, { s.2 with log := { s.2.log with written := [] } }) command
  exact ⟨texts, .trans (.setLog s.2 _) performed⟩

/-- The session after some commands from outside. -/
def visit (s : Client × Highlighter) (commands : List Command) : Client × Highlighter :=
  commands.foldl (fun s command => (step s command).1) s

theorem visit_concat (s : Client × Highlighter) (commands : List Command) (command : Command) :
    visit s (commands ++ [command]) = (step (visit s commands) command).1 := by
  rw [visit, List.foldl_append]
  rfl

theorem visit_reaches (s : Client × Highlighter) (commands : List Command) :
    ∃ texts, Reaches s.2 texts (visit s commands).2 :=
  performs_reach step_reaches s commands

end Session
end QueryService
