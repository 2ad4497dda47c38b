import QueryService.Proofs.Grammar.Language
import QueryService.Proofs.Text.Bytes

/-!
# Greedy alignment

Where an element may be left out or repeated, alignment takes the next token whenever it can. It
loses nothing by that if the element absorbs what follows it: a row that the rest of the pattern
derives is derived without its first token too, should the element accept that token. `absorbs`
checks this on the pattern alone, with a few sample tokens for all those of a follow set.
-/

namespace QueryService

/-- A keyword token carries the keyword that its text spells, any other token none. -/
def Token.Keyed (t : Token) : Prop :=
  t.keyword = if t.kind = .keyword then Keyword.lookup t.value else none

instance (t : Token) : Decidable t.Keyed := inferInstanceAs (Decidable (_ = _))

theorem Keyword.lookup_congr {a b : Bytes} (same : Bytes.sameWord a b = true) : lookup a = lookup b := by
  have upper := Bytes.sameWord_iff.mp same
  have length : a.length = b.length := by simpa [Bytes.toUpper] using congrArg List.length upper
  have empty : a.isEmpty = b.isEmpty := by
    rw [Bool.eq_iff_iff, List.isEmpty_iff_length_eq_zero, List.isEmpty_iff_length_eq_zero, length]
  rw [lookup, lookup, upper, empty, length]

namespace Element

/-- What an element can see of a token is its terminal, its text up to case and, if it is a keyword
token, its keyword. -/
theorem accepts_congr {t u : Token} (terminal : t.terminal? = u.terminal?)
    (text : Bytes.sameWord t.value u.value = true) (keyword : t.keyword = u.keyword) (e : Element) :
    e.accepts t = e.accepts u := by
  have operand : t.isOperand = u.isOperand := by
    simp only [Token.isOperand, keyword, funext (Bytes.sameWord_congr text)]
  have slot : e.slot.admits t = e.slot.admits u := by
    simp only [Slot.admits, terminal, operand]
  have wording : e.wording.admits t.value = e.wording.admits u.value := by
    cases e.wording <;> simp [Wording.admits, Bytes.sameWord_congr text, funext (Bytes.sameWord_congr text)]
  rw [accepts, accepts, slot, wording]

/-- A keyword token with this text. -/
def spelled (word : Bytes) : Token :=
  { kind := .keyword, value := word, start := 0, stop := 0, position := {}, keyword := Keyword.lookup word }

def punctuated (c : UInt8) : Token :=
  { kind := .punctuation, value := [c], start := 0, stop := 0, position := {}, keyword := none }

/-- Marks with a terminal of their own at which patterns end or close. -/
def closingMarks : List (UInt8 × Terminal) :=
  [(Byte.semicolon, .semicolon), (Byte.parenClose, .parenClose), (Byte.bracketClose, .bracketClose)]

/-- Tokens that stand for all those that the element accepts, where a few will do. -/
def samples? (e : Element) : Option (List Token) :=
  match e.slot, e.wording with
  | .terminal .keyword, .any => none
  | .terminal .keyword, wording => some (wording.words.map spelled)
  | .terminal wanted, _ => (closingMarks.find? (·.2 == wanted)).map fun mark => [punctuated mark.1]
  | _, _ => none

/-- No token is accepted by both elements. -/
def apart (e f : Element) : Bool := f.samples?.any fun samples => samples.all fun t => !e.accepts t

/-- Whether what the rest of a pattern derives stays derivable without a first token that the
element accepts. -/
def absorbs (e : Element) : List Element → Bool
  | [] => true
  | f :: rest => (f.optional && f.repeatable || e.apart f) && (!f.optional || e.absorbs rest)

theorem kind_of_keyword {t : Token} (terminal : t.terminal? = some .keyword) : t.kind = .keyword := by
  unfold Token.terminal? Token.symbolTerminal? Terminal.ofMark at terminal
  repeat' split at terminal
  all_goals first | assumption | simp at terminal

theorem mark_of_closing {c d : UInt8} {found : Terminal} (closing : (c, found) ∈ closingMarks)
    (mark : Terminal.ofMark d = some found) : d = c := by
  simp only [closingMarks, List.mem_cons, Prod.mk.injEq, List.not_mem_nil, or_false] at closing
  unfold Terminal.ofMark at mark
  rcases closing with ⟨rfl, rfl⟩ | ⟨rfl, rfl⟩ | ⟨rfl, rfl⟩ <;> split at mark <;>
    first | rfl | exact absurd mark (by decide)

theorem token_of_closing {t : Token} {c : UInt8} {found : Terminal}
    (closing : (c, found) ∈ closingMarks) (terminal : t.terminal? = some found) :
    t.kind = .punctuation ∧ t.value = [c] := by
  have other : found ∉ [.keyword, .identifier, .stringLiteral, .number, .placeholder, .equals,
      .wildcard, .operator] := by
    simp only [closingMarks, List.mem_cons, Prod.mk.injEq, List.not_mem_nil, or_false] at closing
    rcases closing with ⟨_, rfl⟩ | ⟨_, rfl⟩ | ⟨_, rfl⟩ <;> decide
  have punctuation : t.kind = .punctuation := by
    cases kind : t.kind <;> simp only [Token.terminal?, Token.symbolTerminal?, kind, if_true] at terminal
    case punctuation => rfl
    all_goals
      repeat' split at terminal
      all_goals cases terminal <;> simp at other
  simp only [Token.terminal?, Token.symbolTerminal?, punctuation] at terminal
  split at terminal
  · cases terminal
    simp at other
  split at terminal
  · cases terminal
    simp at other
  rw [if_neg (by decide)] at terminal
  split at terminal
  · rename_i d value
    exact ⟨punctuation, by rw [value, mark_of_closing closing terminal]⟩
  · cases terminal

theorem punctuated_of_closing {t : Token} {c : UInt8} {found : Terminal} (keyed : t.Keyed)
    (closing : (c, found) ∈ closingMarks) (terminal : t.terminal? = some found) (f : Element) :
    f.accepts t = f.accepts (punctuated c) := by
  obtain ⟨kind, value⟩ := token_of_closing closing terminal
  refine accepts_congr ?_ ?_ ?_ f
  · simp [Token.terminal?, kind, value, punctuated, Token.symbolTerminal?]
  · simp [value, punctuated, Bytes.sameWord_iff]
  · rw [keyed, if_neg (by simp [kind])]
    rfl

theorem spelled_of_keyword {t : Token} {word : Bytes} (keyed : t.Keyed)
    (terminal : t.terminal? = some .keyword) (same : Bytes.sameWord t.value word = true) (f : Element) :
    f.accepts t = f.accepts (spelled word) := by
  have kind := kind_of_keyword terminal
  refine accepts_congr terminal same ?_ f
  rw [keyed, if_pos kind]
  exact Keyword.lookup_congr same

theorem mem_words {w : Wording} {text : Bytes} (limited : w ≠ .any) (admitted : w.admits text = true) :
    ∃ word ∈ w.words, Bytes.sameWord text word = true := by
  cases w with
  | any => contradiction
  | exactly word => exact ⟨word, List.mem_singleton.mpr rfl, admitted⟩
  | oneOf words => exact List.any_eq_true.mp admitted

theorem exists_sample {e : Element} {t : Token} {samples : List Token} (keyed : t.Keyed)
    (known : e.samples? = some samples) (accepted : e.accepts t = true) :
    ∃ u ∈ samples, ∀ f : Element, f.accepts t = f.accepts u := by
  obtain ⟨admitted, worded⟩ := Bool.and_eq_true_iff.mp accepted
  have terminal {wanted : Terminal} (slot : e.slot = .terminal wanted) : t.terminal? = some wanted := by
    rw [Slot.admits, slot] at admitted
    split at admitted
    · cases admitted
    · rename_i found read
      rw [read, beq_iff_eq.mp admitted]
  unfold samples? at known
  split at known
  · cases known
  · rename_i slot limited
    cases known
    obtain ⟨word, listed, same⟩ := mem_words limited worded
    exact ⟨_, List.mem_map_of_mem listed, spelled_of_keyword keyed (terminal slot) same⟩
  · rename_i wanted _ slot _
    obtain ⟨⟨c, found⟩, first, rfl⟩ := Option.map_eq_some_iff.mp known
    have same := List.find?_some first
    obtain rfl : found = wanted := beq_iff_eq.mp same
    exact ⟨_, List.mem_singleton.mpr rfl,
      punctuated_of_closing keyed (List.mem_of_find?_eq_some first) (terminal slot)⟩
  · cases known

theorem not_accepts_of_apart {e f : Element} {t : Token} (keyed : t.Keyed) (apart : e.apart f = true)
    (accepted : e.accepts t = true) : f.accepts t = false := by
  obtain ⟨samples, known, refused⟩ := (Option.any_eq_true _ _).mp apart
  by_contra member
  obtain ⟨u, sample, same⟩ := exists_sample keyed known (Bool.eq_true_of_not_eq_false member)
  have := List.all_eq_true.mp refused u sample
  simp [← same e, accepted] at this

theorem mem_patternLanguage_of_absorbs {e : Element} {pattern : List Element} {t : Token}
    {row : List Token} (keyed : t.Keyed) (absorbs : e.absorbs pattern = true)
    (accepted : e.accepts t = true) (member : t :: row ∈ patternLanguage pattern) :
    row ∈ patternLanguage pattern := by
  induction pattern with
  | nil => exact absurd (mem_patternLanguage_nil.mp member) (List.cons_ne_nil t row)
  | cons f rest ih =>
    simp only [Element.absorbs, Bool.and_eq_true, Bool.or_eq_true, Bool.not_eq_true'] at absorbs
    obtain ⟨first, later⟩ := absorbs
    rcases cons_mem_patternLanguage_cons.mp member with ⟨optional, absent⟩ | ⟨taken, present⟩
    · refine patternLanguage_of_optional optional (ih ?_ absent)
      exact later.resolve_left (by simp [optional])
    · rcases first with ⟨optional, _⟩ | apart
      · rcases present with last | ⟨_, more⟩
        · exact patternLanguage_of_optional optional last
        · exact patternLanguage_of_needed more
      · exact absurd taken (by simp [not_accepts_of_apart keyed apart accepted])

end Element

/-- Every element that may take a token more or less absorbs what follows it. -/
def absorbing : List Element → Bool
  | [] => true
  | e :: rest => (!(e.optional || e.repeatable) || e.absorbs rest) && absorbing rest

theorem absorbing_table : ∀ r ∈ Rule.table, absorbing r.pattern = true := by
  decide +kernel

namespace Alignment

theorem nil_fits {pattern : List Element} :
    ({ remaining := pattern } : Alignment).fits = true ↔ [] ∈ patternLanguage pattern := by
  induction pattern with
  | nil => simp [fits, required, mem_patternLanguage_nil]
  | cons e rest ih =>
    rw [nil_mem_patternLanguage_cons, ← ih]
    cases optional : e.optional <;> simp [fits, required, optional]

theorem absorbs_of_absorbing {e : Element} {pattern : List Element}
    (greedy : absorbing (e :: pattern) = true) (loose : e.optional = true ∨ e.repeatable = true) :
    e.absorbs pattern = true := by
  simp only [absorbing, Bool.and_eq_true, Bool.or_eq_true, Bool.not_eq_true', Bool.or_eq_false_iff] at greedy
  rcases greedy.1 with ⟨needed, once⟩ | absorbs
  · simp [needed, once] at loose
  · exact absorbs

/-- A repeatable element takes one more token before what the pattern derives. -/
theorem mem_of_more {e : Element} {pattern : List Element} {t : Token} {row : List Token}
    (repeatable : e.repeatable = true) (accepted : e.accepts t = true)
    (member : row ∈ patternLanguage (e :: pattern)) : t :: row ∈ patternLanguage (e :: pattern) := by
  refine cons_mem_patternLanguage_cons.mpr (Or.inr ⟨accepted, ?_⟩)
  cases row with
  | nil => exact Or.inl (nil_mem_patternLanguage_cons.mp member).2
  | cons u row =>
    rcases cons_mem_patternLanguage_cons.mp member with ⟨_, absent⟩ | present
    · exact Or.inl absent
    · exact Or.inr ⟨repeatable, cons_mem_patternLanguage_cons.mpr (Or.inr present)⟩

/-- Two accepted tokens in a row may as well both go to the repeatable element. -/
theorem taken_more {e : Element} {pattern : List Element} {t u : Token} {row : List Token}
    (absorbs : e.absorbs pattern = true) (first : t.Keyed) (second : u.Keyed)
    (repeatable : e.repeatable = true) (accepted : e.accepts t = true) (again : e.accepts u = true) :
    t :: u :: row ∈ patternLanguage (e :: pattern) ↔ u :: row ∈ patternLanguage (e :: pattern) := by
  refine ⟨fun member => ?_, mem_of_more repeatable accepted⟩
  rcases cons_mem_patternLanguage_cons.mp member with ⟨optional, absent⟩ | ⟨_, last | ⟨_, more⟩⟩
  · exact patternLanguage_of_optional optional
      (Element.mem_patternLanguage_of_absorbs first absorbs accepted absent)
  · have absorbed := Element.mem_patternLanguage_of_absorbs second absorbs again last
    exact cons_mem_patternLanguage_cons.mpr (Or.inr ⟨again, Or.inl absorbed⟩)
  · exact patternLanguage_of_needed more

/-- An accepted token that no other one follows in the same place is the last one there. -/
theorem taken_last {e : Element} {pattern : List Element} {t : Token} {row : List Token}
    (absorbs : e.optional = true → e.absorbs pattern = true) (keyed : t.Keyed)
    (accepted : e.accepts t = true) (last : e.repeatable = true → row.head?.any e.accepts = false) :
    t :: row ∈ patternLanguage (e :: pattern) ↔ row ∈ patternLanguage pattern := by
  constructor
  · intro member
    rcases cons_mem_patternLanguage_cons.mp member with ⟨optional, absent⟩ | ⟨_, once | ⟨repeatable, more⟩⟩
    · exact Element.mem_patternLanguage_of_absorbs keyed (absorbs optional) accepted absent
    · exact once
    · cases row with
      | nil => exact absurd (nil_mem_patternLanguage_cons.mp more).1 (by simp [Element.needed])
      | cons u row =>
        rcases cons_mem_patternLanguage_cons.mp more with ⟨optional, _⟩ | ⟨again, _⟩
        · exact absurd optional (by simp [Element.needed])
        · exact absurd (last repeatable) (by simpa [Element.needed, Element.accepts] using again)
  · intro member
    exact cons_mem_patternLanguage_cons.mpr (Or.inr ⟨accepted, Or.inl member⟩)

/-- What alignment fits is derived, whatever the tokens carry. -/
theorem mem_language_of_fits {pattern : List Element} {tokens : List Indexed}
    (fits : (of pattern tokens).fits = true) : tokens.map (·.token) ∈ patternLanguage pattern := by
  fun_induction of pattern tokens with
  | case1 pattern => exact nil_fits.mp fits
  | case2 tokens nonempty =>
    have none : tokens = [] := by simpa [Alignment.fits, required] using fits
    exact absurd none nonempty
  | case3 e pattern t tokens accepted more ih =>
    exact mem_of_more (Bool.and_eq_true_iff.mp more).1 accepted (ih fits)
  | case4 e pattern t tokens accepted last ih =>
    exact cons_mem_patternLanguage_cons.mpr (Or.inr ⟨accepted, Or.inl (ih fits)⟩)
  | case5 e pattern t tokens refused optional ih => exact patternLanguage_of_optional optional (ih fits)
  | case6 e pattern t tokens refused needed later ih => simp [Alignment.fits] at fits

/-- Alignment fits exactly the rows that the pattern derives. -/
theorem fits_iff_mem_language {pattern : List Element} {tokens : List Indexed}
    (keyed : ∀ t ∈ tokens, t.token.Keyed) (greedy : absorbing pattern = true) :
    (of pattern tokens).fits = true ↔ tokens.map (·.token) ∈ patternLanguage pattern := by
  fun_induction of pattern tokens with
  | case1 pattern => exact nil_fits
  | case2 tokens nonempty =>
    rw [mem_patternLanguage_nil, List.map_eq_nil_iff]
    simp [fits, required]
  | case3 e pattern t tokens accepted more ih =>
    obtain ⟨repeatable, next⟩ := Bool.and_eq_true_iff.mp more
    obtain ⟨u, rest, rfl, again⟩ : ∃ u rest, tokens = u :: rest ∧ e.accepts u.token = true := by
      cases tokens with
      | nil => cases next
      | cons u rest => exact ⟨u, rest, rfl, next⟩
    rw [ih (fun v member => keyed v (List.mem_cons_of_mem t member)) greedy]
    simp only [List.map_cons]
    rw [← taken_more (absorbs_of_absorbing greedy (by simp [repeatable])) (keyed t List.mem_cons_self)
      (keyed u (List.mem_cons_of_mem t List.mem_cons_self)) repeatable accepted again]
  | case4 e pattern t tokens accepted last ih =>
    obtain ⟨_, later⟩ := Bool.and_eq_true_iff.mp greedy
    rw [ih (fun v member => keyed v (List.mem_cons_of_mem t member)) later, List.map_cons]
    refine (taken_last (fun optional => ?_) (keyed t List.mem_cons_self) accepted fun repeatable => ?_).symm
    · exact absorbs_of_absorbing greedy (Or.inl optional)
    · simpa [repeatable, List.head?_map, Option.any_map, Function.comp_def] using last
  | case5 e pattern t tokens refused optional ih =>
    obtain ⟨_, later⟩ := Bool.and_eq_true_iff.mp greedy
    rw [ih keyed later, List.map_cons, cons_mem_patternLanguage_cons]
    simp [optional, refused]
  | case6 e pattern t tokens refused needed later ih =>
    rw [List.map_cons, cons_mem_patternLanguage_cons]
    simp [needed, refused, fits]

end Alignment
end QueryService
