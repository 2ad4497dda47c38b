import Mathlib.Logic.Function.Basic
import QueryService.Settings

/-!
# Single settings

A text may give fifteen settings: three numbers, eleven colors and a level. Each has its section, its key and a
way to read its value, and an assignment gives one setting the value that is read and leaves the others alone
(`get_assign`).
-/

namespace QueryService

/-- The parts of a query that have a color of their own. -/
inductive Theme.Part where
  | keyword | identifier | literal | operator | punctuation | comment | string | number | placeholder
  | unknown | error
  deriving DecidableEq

namespace Theme.Part

def all : List Part :=
  [keyword, identifier, literal, operator, punctuation, comment, string, number, placeholder, unknown, error]

def name : Part → Bytes
  | keyword => ascii "keyword"
  | identifier => ascii "identifier"
  | literal => ascii "literal"
  | operator => ascii "operator"
  | punctuation => ascii "punctuation"
  | comment => ascii "comment"
  | string => ascii "string"
  | number => ascii "number"
  | placeholder => ascii "placeholder"
  | unknown => ascii "unknown"
  | error => ascii "error"

def color (t : Theme) : Part → Color
  | keyword => t.keyword
  | identifier => t.identifier
  | literal => t.literal
  | operator => t.operator
  | punctuation => t.punctuation
  | comment => t.comment
  | string => t.string
  | number => t.number
  | placeholder => t.placeholder
  | unknown => t.unknown
  | error => t.error

def paint (t : Theme) (c : Color) : Part → Theme
  | keyword => { t with keyword := c }
  | identifier => { t with identifier := c }
  | literal => { t with literal := c }
  | operator => { t with operator := c }
  | punctuation => { t with punctuation := c }
  | comment => { t with comment := c }
  | string => { t with string := c }
  | number => { t with number := c }
  | placeholder => { t with placeholder := c }
  | unknown => { t with unknown := c }
  | error => { t with error := c }

def ofName? (text : Bytes) : Option Part := all.find? (·.name = text)

theorem ofName?_name (part : Part) : ofName? part.name = some part := by cases part <;> decide

theorem name_injective : Function.Injective name := by
  intro part other same
  have read := congrArg ofName? same
  rw [ofName?_name, ofName?_name] at read
  exact Option.some.inj read

theorem color_paint (t : Theme) (c : Color) (part other : Part) :
    other.color (part.paint t c) = if part = other then c else other.color t := by
  cases part <;> cases other <;> rfl

theorem ext_color {t u : Theme} (same : ∀ part : Part, part.color t = part.color u) : t = u := by
  cases t
  cases u
  rw [Theme.mk.injEq]
  exact ⟨same keyword, same identifier, same literal, same operator, same punctuation, same comment, same string,
    same number, same placeholder, same unknown, same error⟩

theorem set?_name (t : Theme) (c : Color) (part : Part) : t.set? part.name c = some (part.paint t c) := by
  cases part <;> rfl

theorem set?_unnamed {text : Bytes} (t : Theme) (c : Color) (unnamed : ∀ part : Part, text ≠ part.name) :
    t.set? text c = none := by
  have unnamed : ∀ part ∈ all, text ≠ part.name := fun part _ => unnamed part
  simp only [all, List.forall_mem_cons, name] at unnamed
  simp only [set?, unnamed, if_false]

end Theme.Part

/-- What a text may set. -/
inductive Setting where
  | debounce
  | maxEntries
  | maxBytes
  | color (part : Theme.Part)
  | level
  deriving DecidableEq

namespace Setting

abbrev Value : Setting → Type
  | debounce => UInt32
  | maxEntries | maxBytes => Nat
  | color _ => Color
  | level => LogLevel

@[simp]
def home : Setting → Settings.Section
  | debounce | maxEntries | maxBytes => .editor
  | color _ => .theme
  | level => .log

@[simp]
def key : Setting → Bytes
  | debounce => ascii "debounce_ms"
  | maxEntries => ascii "cache_max_entries"
  | maxBytes => ascii "cache_max_bytes"
  | color part => part.name
  | level => ascii "level"

/-- The value that is written, if it can be read. -/
@[simp]
def read? (text : Bytes) : (x : Setting) → Option x.Value
  | debounce => (Settings.parseSize? text).map Nat.toUInt32
  | maxEntries | maxBytes => Settings.parseSize? text
  | color _ => Color.parse? text
  | level => LogLevel.parse? text

@[simp]
def get (s : Settings) : (x : Setting) → x.Value
  | debounce => s.debounce
  | maxEntries => s.cache.maxEntries
  | maxBytes => s.cache.maxBytes
  | color part => part.color s.theme
  | level => s.level

/-- No setting stands before the first section header or under an unknown one. -/
theorem home_ne_other (x : Setting) : x.home ≠ .other := by
  cases x <;> exact fun same => Settings.Section.noConfusion same

/-- Section and key name a setting. -/
theorem ext_key {x y : Setting} (home : x.home = y.home) (key : x.key = y.key) : x = y := by
  cases x with
  | color part =>
    cases y with
    | color other => rw [Theme.Part.name_injective key]
    | _ => cases home
  | _ =>
    cases y with
    | color part => cases home
    | _ => first | rfl | exact absurd key (by decide)

end Setting

namespace Settings

variable {s s' : Settings}

/-- Settings that agree on each of the fifteen are the same. -/
theorem ext_get (same : ∀ x : Setting, x.get s = x.get s') : s = s' := by
  have theme := Theme.Part.ext_color fun part => same (.color part)
  cases s with
  | mk debounce cache theme level =>
    cases s' with
    | mk debounce' cache' theme' level' =>
      have sizes : cache = cache' := by
        cases cache
        cases cache'
        exact CachePolicy.mk.injEq .. ▸ ⟨same .maxEntries, same .maxBytes⟩
      exact Settings.mk.injEq .. ▸ ⟨same .debounce, sizes, theme, same .level⟩

theorem get_assign_editor (s : Settings) (key value : Bytes) (x : Setting) :
    x.get (s.assign .editor key value) =
      if x.home = .editor ∧ key = x.key then (x.read? value).getD (x.get s) else x.get s := by
  unfold assign
  dsimp only
  cases number : parseSize? value with
  | none => cases x <;> simp [number]
  | some size =>
    rw [Option.map_some, Option.getD_some]
    have entries : ascii "cache_max_entries" ≠ ascii "debounce_ms" := by decide
    have bytes : ascii "cache_max_bytes" ≠ ascii "debounce_ms" := by decide
    have bounds : ascii "cache_max_bytes" ≠ ascii "cache_max_entries" := by decide
    unfold assignEditor
    split
    next named => cases x <;> simp [number, named, entries.symm, bytes.symm]
    next later =>
      split
      next named => cases x <;> simp [number, named, entries, bounds.symm]
      next last =>
        split
        next named => cases x <;> simp [number, named, bytes, bounds]
        next unnamed => cases x <;> simp [later, last, unnamed]

theorem get_assign_theme (s : Settings) (key value : Bytes) (x : Setting) :
    x.get (s.assign .theme key value) =
      if x.home = .theme ∧ key = x.key then (x.read? value).getD (x.get s) else x.get s := by
  unfold assign
  dsimp only
  cases painted : Color.parse? value with
  | none => cases x <;> simp [painted]
  | some c =>
    rw [Option.bind_some]
    by_cases named : ∃ part : Theme.Part, key = part.name
    · obtain ⟨part, rfl⟩ := named
      rw [Theme.Part.set?_name]
      cases x with
      | color other => simp [painted, Theme.Part.color_paint, Theme.Part.name_injective.eq_iff]
      | _ => simp
    · rw [not_exists] at named
      rw [Theme.Part.set?_unnamed s.theme c named]
      cases x <;> simp [named]

theorem get_assign_log (s : Settings) (key value : Bytes) (x : Setting) :
    x.get (s.assign .log key value) =
      if x.home = .log ∧ key = x.key then (x.read? value).getD (x.get s) else x.get s := by
  unfold assign
  dsimp only
  split
  next named =>
    cases level : LogLevel.parse? value with
    | none => cases x <;> simp [level]
    | some level' => cases x <;> simp [level, named]
  next unnamed => cases x <;> simp [unnamed]

/-- An assignment gives its value to the setting of its section and key, if it can be read. -/
theorem get_assign (s : Settings) (within : Section) (key value : Bytes) (x : Setting) :
    x.get (s.assign within key value) =
      if x.home = within ∧ key = x.key then (x.read? value).getD (x.get s) else x.get s := by
  cases within with
  | editor => exact get_assign_editor s key value x
  | theme => exact get_assign_theme s key value x
  | log => exact get_assign_log s key value x
  | other => exact (if_neg fun both => x.home_ne_other both.1).symm

end Settings
end QueryService
