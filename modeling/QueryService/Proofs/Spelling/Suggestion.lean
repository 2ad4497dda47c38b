import QueryService.Proofs.Spelling.Distance

/-!
# Suggestions

The search over the table holds the first of the nearest entries that it has seen (`search_foldl`). So a word
that is not too short is given the nearest keyword that it does not spell itself, if that is within two edits
(`suggest_nearest`).
-/

namespace QueryService
namespace Keyword

/-- The length of the shortest scripts that turn a word into the keyword. -/
noncomputable def distance (word : Bytes) (keyword : Keyword) : Nat := levenshtein word keyword.lexeme

/-- The first of the entries nearest to the word, apart from those that the word spells. -/
structure Nearest (word : Bytes) (entries : List Keyword) (keyword : Keyword) : Prop where
  positive : 0 < distance word keyword
  least : ∀ entry ∈ entries, 0 < distance word entry → distance word keyword ≤ distance word entry
  first : entries.find? (distance word · = distance word keyword) = some keyword

variable {word : Bytes} {entries : List Keyword} {entry keyword : Keyword} {best : Option (Nat × Keyword)}

theorem Nearest.mem (nearest : Nearest word entries keyword) : keyword ∈ entries :=
  List.mem_of_find?_eq_some nearest.first

theorem Nearest.unique (nearest : Nearest word entries keyword) (other : Nearest word entries entry) :
    keyword = entry := by
  have same : distance word keyword = distance word entry :=
    Nat.le_antisymm (nearest.least entry other.mem other.positive) (other.least keyword nearest.mem nearest.positive)
  have first := nearest.first
  rw [same] at first
  exact Option.some.inj (first.symm.trans other.first)

/-! ### The search -/

/-- What the search holds after some entries of the table. -/
inductive Search (word : Bytes) (entries : List Keyword) : Option (Nat × Keyword) → Prop
  | nothing (far : ∀ entry ∈ entries, 0 < distance word entry → suggestionLimit ≤ distance word entry) :
      Search word entries none
  | found {keyword : Keyword} (nearest : Nearest word entries keyword)
      (close : distance word keyword < suggestionLimit) :
      Search word entries (some (distance word keyword, keyword))

/-- The distance that an entry has to beat. -/
def bound (best : Option (Nat × Keyword)) : Nat := (best.map (·.1)).getD suggestionLimit

theorem closer_eq (word : Bytes) (best : Option (Nat × Keyword)) (entry : Keyword) :
    closer word best entry =
      if 0 < distance word entry ∧ distance word entry < bound best then some (distance word entry, entry)
      else best := by
  unfold closer
  dsimp only
  rw [editDistance_eq_levenshtein]
  simp only [Bool.and_eq_true, decide_eq_true_eq]
  rfl

namespace Search

theorem bound_le (search : Search word entries best) : bound best ≤ suggestionLimit := by
  cases search with
  | nothing => exact Nat.le_refl _
  | found _ close => exact Nat.le_of_lt close

theorem far (search : Search word entries best) :
    ∀ entry ∈ entries, 0 < distance word entry → bound best ≤ distance word entry := by
  cases search with
  | nothing far => exact far
  | found nearest _ => exact nearest.least

theorem step (search : Search word entries best) (entry : Keyword) :
    Search word (entries ++ [entry]) (closer word best entry) := by
  have far := search.far
  have bounded := search.bound_le
  rw [closer_eq]
  split <;> rename_i nearer
  · obtain ⟨positive, below⟩ := nearer
    refine .found ⟨positive, ?least, ?first⟩ (Nat.lt_of_lt_of_le below bounded)
    case least =>
      intro other member apart
      rcases List.mem_append.mp member with earlier | last
      · exact Nat.le_of_lt (Nat.lt_of_lt_of_le below (far other earlier apart))
      · rw [List.mem_singleton.mp last]
    case first =>
      have none : entries.find? (distance word · = distance word entry) = none := by
        rw [List.find?_eq_none]
        intro other earlier
        have apart := far other earlier
        rw [decide_eq_true_eq]
        omega
      rw [List.find?_append, none, Option.none_or, List.find?_singleton, if_pos (by simp)]
  · have all : ∀ other ∈ entries ++ [entry], 0 < distance word other → bound best ≤ distance word other := by
      intro other member apart
      rcases List.mem_append.mp member with earlier | last
      · exact far other earlier apart
      · rw [List.mem_singleton.mp last] at apart ⊢
        exact Nat.le_of_not_lt fun below => nearer ⟨apart, below⟩
    cases search with
    | nothing => exact .nothing all
    | found nearest close =>
      refine .found ⟨nearest.positive, all, ?_⟩ close
      rw [List.find?_append, nearest.first, Option.some_or]

end Search

theorem search_foldl (word : Bytes) (entries : List Keyword) :
    Search word entries (entries.foldl (closer word) none) := by
  induction entries using List.reverseRecOn with
  | nil => exact .nothing nofun
  | append_singleton entries entry ih =>
    rw [List.foldl_append, List.foldl_cons, List.foldl_nil]
    exact ih.step entry

theorem suggest_cases (long : 3 ≤ word.length) :
    suggest word = none ∧
        (∀ entry ∈ table.toList, 0 < distance (Bytes.toUpper word) entry →
          suggestionLimit ≤ distance (Bytes.toUpper word) entry) ∨
      ∃ keyword, suggest word = some keyword ∧ Nearest (Bytes.toUpper word) table.toList keyword ∧
        distance (Bytes.toUpper word) keyword < suggestionLimit := by
  have search := search_foldl (Bytes.toUpper word) table.toList
  rw [suggest, if_neg (Nat.not_lt.mpr long), ← Array.foldl_toList]
  generalize table.toList.foldl (closer (Bytes.toUpper word)) none = best at search
  cases search with
  | nothing far => exact Or.inl ⟨rfl, far⟩
  | found nearest close => exact Or.inr ⟨_, rfl, nearest, close⟩

theorem suggest_of_short (short : word.length < 3) : suggest word = none := by
  rw [suggest, if_pos short]

theorem mem_table_of_suggest (suggested : suggest word = some keyword) : keyword ∈ table.toList := by
  by_cases short : word.length < 3
  · rw [suggest_of_short short] at suggested
    cases suggested
  · rcases suggest_cases (Nat.not_lt.mp short) with ⟨none, _⟩ | ⟨_, found, nearest, _⟩
    · rw [none] at suggested
      cases suggested
    · rw [suggested] at found
      obtain rfl := Option.some.inj found
      exact nearest.mem

/-- A word of three bytes or more gets a suggestion if some keyword is one or two edits away from it in upper
case. The suggestion is the first keyword at the smallest positive distance. Shorter words get none. -/
theorem suggest_nearest (word : Bytes) :
    (word.length < 3 → suggest word = none) ∧
      (3 ≤ word.length →
        (suggest word = none ↔ ∀ entry ∈ table.toList,
          levenshtein (Bytes.toUpper word) entry.lexeme ≠ 1 ∧ levenshtein (Bytes.toUpper word) entry.lexeme ≠ 2) ∧
        ∀ keyword, suggest word = some keyword ↔
          Nearest (Bytes.toUpper word) table.toList keyword ∧
            levenshtein (Bytes.toUpper word) keyword.lexeme ≤ 2) := by
  refine ⟨suggest_of_short, fun long => ?_⟩
  have limit : suggestionLimit = 3 := rfl
  rcases suggest_cases long with ⟨none, far⟩ | ⟨found, suggested, nearest, close⟩
  · constructor
    · refine iff_of_true none fun entry listed => ?_
      have apart := far entry listed
      rw [distance] at apart
      omega
    · refine fun keyword => iff_of_false (by rw [none]; nofun) fun ⟨nearest, close⟩ => ?_
      have apart := far keyword nearest.mem nearest.positive
      rw [distance] at apart
      omega
  · have positive := nearest.positive
    rw [distance] at positive close
    constructor
    · refine iff_of_false (by rw [suggested]; nofun) fun far => ?_
      have apart := far found nearest.mem
      omega
    · intro keyword
      rw [suggested, Option.some.injEq]
      constructor
      · rintro rfl
        exact ⟨nearest, Nat.le_of_lt_succ close⟩
      · exact fun other => nearest.unique other.1

/-- A word one edit away from two keywords, of which the table has BUNDLE first. -/
theorem tied_word_suggestion :
    3 ≤ (ascii "bundlex").length ∧ levenshtein (ascii "BUNDLEX") (ascii "BUNDLES") = 1 ∧
      ∃ keyword, keyword.lexeme = ascii "BUNDLE" ∧ suggest (ascii "bundlex") = some keyword ∧
        Nearest (Bytes.toUpper (ascii "bundlex")) table.toList keyword := by
  have long : 3 ≤ (ascii "bundlex").length := by decide +kernel
  obtain ⟨keyword, suggested, spelled⟩ :
      ∃ keyword, suggest (ascii "bundlex") = some keyword ∧ keyword.lexeme = ascii "BUNDLE" :=
    ⟨⟨ascii "BUNDLE", .object, ascii "Data bundle/collection"⟩, by decide +kernel⟩
  have nearest := (((suggest_nearest (ascii "bundlex")).2 long).2 keyword).mp suggested
  refine ⟨long, ?_, keyword, spelled, suggested, nearest.1⟩
  rw [← editDistance_eq_levenshtein]
  decide +kernel

end Keyword
end QueryService
