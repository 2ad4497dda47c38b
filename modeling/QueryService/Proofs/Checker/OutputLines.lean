import QueryService.Proofs.Checker.Completeness
import QueryService.Proofs.Diagnostic.OneLine
import QueryService.Proofs.Token.Parts

/-!
# The lines of the output

Only line breaks and block comments hold a byte that breaks a line (`kind_of_broken`), and nothing that is said
of the other tokens does. So whatever a file holds, the checker prints two lines for each diagnostic, and no text
of the file can add a line or end one (`output_line_oriented`).
-/

namespace QueryService

variable {text path : Bytes} {t : Token} {d : Diagnostic} {s : Statement} {settings : Settings}

/-- A token that breaks a line is a line break or a block comment. -/
theorem kind_of_broken (member : t ∈ tokenize text) (broken : ¬ Unbroken t.value) :
    t.kind = .newline ∨ t.kind = .comment ∧ ascii "/*" <+: t.value := by
  obtain ⟨n, c, rest, _, _, rfl⟩ := Lexer.mem_tokensFrom member
  cases may : Lexer.mayBreak c rest with
  | false => exact absurd (Lexer.value_inLine may) broken
  | true =>
    rcases Lexer.mayBreak_cases may with ended | ⟨rfl, later, rfl⟩
    · left
      rw [Lexer.lexeme_break ended]
      rfl
    · right
      rw [Lexer.lexeme_block, Nat.add_comm 1]
      exact ⟨rfl, later.take (Lexer.blockCommentTail later), rfl⟩

theorem unbroken_of_parse (member : s ∈ Statement.parse text) :
    ∀ t ∈ s.tokens, t.isSignificant = true → Unbroken t.value := by
  rw [(Statement.parse_tokens member).1]
  intro t inside significant
  obtain ⟨t, there, rfl⟩ := List.mem_map.mp inside
  have quoted : Unbroken t.value := significant_unbroken there significant
  exact quoted

namespace Checker

/-- The line that tells what is wrong, and where. -/
def heading (file : Bytes) (d : Diagnostic) : Bytes :=
  file ++ ascii ":" ++ Bytes.ofNat (d.position.line + 1) ++ ascii ":" ++ Bytes.ofNat (d.position.column + 1) ++
    ascii ": error[" ++ d.fault.code ++ ascii "]: " ++ d.message

/-- The line that tells how to mend it. -/
def note (d : Diagnostic) : Bytes := ascii "  note: " ++ d.suggestion

theorem printed_eq_followed (file : Bytes) (d : Diagnostic) : printed file d = followed [heading file d, note d] := by
  simp [printed, newline, heading, note, followed]

theorem unbroken_code (fault : Fault) : Unbroken fault.code := by cases fault <;> decide

theorem unbroken_heading (file : Unbroken path) (oneLine : d.OneLine) : Unbroken (heading path d) := by
  have colon : Unbroken (ascii ":") := unbroken_ascii rfl
  have place := unbroken_append (unbroken_append (unbroken_append (unbroken_append file colon)
    (unbroken_ofNat (d.position.line + 1))) colon) (unbroken_ofNat (d.position.column + 1))
  have coded := unbroken_append (unbroken_append place (unbroken_ascii rfl : Unbroken (ascii ": error[")))
    (unbroken_code d.fault)
  exact unbroken_append (unbroken_append coded (unbroken_ascii rfl)) oneLine.message

theorem unbroken_note (oneLine : d.OneLine) : Unbroken (note d) :=
  unbroken_append (unbroken_ascii rfl) oneLine.suggestion

theorem oneLine_inspect (settings : Settings) (text : Bytes) : OneLines (inspect settings text).1 := by
  rw [inspect_found]
  intro d member
  obtain ⟨s, listed, found⟩ := List.mem_flatMap.mp member
  exact oneLine_analyze (unbroken_of_parse (List.mem_of_mem_filter listed)) 0 d found

theorem check_stdout (settings : Settings) (path text : Bytes) :
    (check settings path text).stdout =
      followed ((inspect settings text).1.flatMap fun d => [heading path d, note d]) := by
  have printing : printed path = fun d => followed [heading path d, note d] := funext (printed_eq_followed path)
  rw [followed, List.flatMap_assoc, check, printing]
  rfl

/-- Of the tokens of a text only line breaks and block comments break a line. So no diagnostic does, but for the
comment that it shows to lack its end, and the checker prints a line for each diagnostic with a line for its note
behind it, and nothing else. -/
theorem output_line_oriented (text : Bytes) :
    (∀ t ∈ tokenize text, ¬ Unbroken t.value → t.kind = .newline ∨ t.kind = .comment ∧ ascii "/*" <+: t.value) ∧
      (∀ firstLine, ∀ d ∈ analyze (tokenize text) (validate (tokenize text)) firstLine,
        Unbroken d.message ∧ Unbroken d.suggestion ∧ (d.fault ≠ .unterminatedComment → Unbroken d.source)) ∧
      ∀ (env : Environment) (path : Bytes) (settings : Settings), env.arguments = [path] →
        path ≠ ascii "--version" → Unbroken path → Checker.settings env = .ok settings →
        env.content path = some text →
          let lines := (inspect settings text).1.flatMap fun d => [heading path d, note d]
          (run env).stdout = followed lines ∧ (∀ line ∈ lines, Unbroken line) ∧
            Bytes.feedLines (run env).stdout = lines := by
  refine ⟨fun t member => kind_of_broken member, fun firstLine d member => ?_, ?_⟩
  · have oneLine := oneLine_analyze (fun t inside => significant_unbroken inside) firstLine d member
    exact ⟨oneLine.message, oneLine.suggestion, oneLine.source⟩
  · intro env path settings arguments file named loaded readable lines
    have unbroken : ∀ line ∈ lines, Unbroken line := by
      intro line member
      obtain ⟨d, found, either⟩ := List.mem_flatMap.mp member
      have oneLine := oneLine_inspect settings text d found
      rcases List.mem_pair.mp either with rfl | rfl
      · exact unbroken_heading named oneLine
      · exact unbroken_note oneLine
    have written : (run env).stdout = followed lines := by
      rw [run_eq_check arguments file loaded readable, check_stdout]
    refine ⟨written, unbroken, ?_⟩
    rw [written, feedLines_followed fun line member => not_mem_of_unbroken (unbroken line member)]

/-- A file with breaks behind a backslash, in a comment without its end, and between the words. -/
def ragged : Environment where
  arguments := [ascii "f.sql"]
  settingsPath := none
  content := fun path => if path = ascii "f.sql" then some (ascii "\"a\\\n\rUSE\r\nb /*\n;\r") else none

theorem ragged_run_lines :
    let text := ascii "\"a\\\n\rUSE\r\nb /*\n;\r"
    ragged.content (ascii "f.sql") = some text ∧ Unbroken (ascii "f.sql") ∧
      (∃ t ∈ tokenize text, ¬ Unbroken t.value ∧ t.kind ≠ .newline) ∧
      ∃ lines : List Bytes, 0 < lines.length ∧ lines.length = 2 * (inspect {} text).1.length ∧
        (∀ line ∈ lines, Unbroken line) ∧ Bytes.feedLines (run ragged).stdout = lines := by
  intro text
  have named : Unbroken (ascii "f.sql") := by decide +kernel
  obtain ⟨kinds, _, output⟩ := output_line_oriented text
  obtain ⟨_, unbroken, lines⟩ := output ragged (ascii "f.sql") {} rfl (by decide +kernel) named rfl rfl
  exact ⟨rfl, named, by decide +kernel, _, by decide +kernel, by decide +kernel, unbroken, lines⟩

end Checker
end QueryService
