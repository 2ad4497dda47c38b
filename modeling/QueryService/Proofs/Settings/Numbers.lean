import Mathlib.Data.Nat.Digits.Defs
import QueryService.Proofs.Settings.Loading

/-!
# Numbers in settings

A value is a number if it is all decimal digits, and it is read if it fits 64 bits (`parseSize?_eq_some_iff`). So the
three numbers of the editor are the last ones written that fit 64 bits, but of a delay only the low 32 bits are kept.
-/

namespace QueryService
namespace Settings

variable {text key : Bytes} {x : Setting}

/-- A text of decimal digits and the number that they write, the last digit being the lowest. -/
def Decimal (text : Bytes) (n : Nat) : Prop :=
  text ≠ [] ∧ (∀ c ∈ text, Byte.isDigit c = true) ∧
    n = Nat.ofDigits 10 (text.reverse.map fun c => c.toNat - 0x30)

theorem digitsValue_eq_ofDigits (digits : Bytes) :
    digitsValue digits = Nat.ofDigits 10 (digits.reverse.map fun c => c.toNat - 0x30) := by
  unfold digitsValue
  induction digits using List.reverseRecOn with
  | nil => rfl
  | append_singleton digits c ih =>
    rw [List.foldl_concat, ih, List.reverse_concat, List.map_cons, Nat.ofDigits_cons, Nat.add_comm]

theorem parseSize?_eq_some_iff {n : Nat} : parseSize? text = some n ↔ Decimal text n ∧ n < sizeLimit := by
  unfold parseSize? Decimal
  rw [← digitsValue_eq_ofDigits]
  constructor
  · intro read
    split at read
    · next number =>
      simp only [Bool.and_eq_true, Bool.not_eq_true', List.isEmpty_eq_false_iff, List.all_eq_true,
        decide_eq_true_eq] at number
      obtain rfl := Option.some.inj read
      exact ⟨⟨number.1.1, number.1.2, rfl⟩, number.2⟩
    · cases read
  · rintro ⟨⟨nonempty, digits, rfl⟩, small⟩
    rw [if_pos]
    simp only [Bool.and_eq_true, Bool.not_eq_true', List.isEmpty_eq_false_iff, List.all_eq_true,
      decide_eq_true_eq]
    exact ⟨⟨nonempty, digits⟩, small⟩

/-- The line at an index, which is in the section of the editor, writes a number for a key. -/
def Writes (text key : Bytes) (k n : Nat) : Prop :=
  ∃ line value, (Bytes.feedLines text)[k]? = some line ∧
    sectionAfter ((Bytes.feedLines text).take k) = .editor ∧ Pair line key value ∧ Decimal value n

/-- The last number below the limit that a text writes for a key, or the start if it writes none. -/
def LastBelow (limit : Nat) (text key : Bytes) (start n : Nat) : Prop :=
  (∃ k, Writes text key k n ∧ n < limit ∧ ∀ later m, k < later → Writes text key later m → limit ≤ m) ∨
    (∀ k m, Writes text key k m → limit ≤ m) ∧ n = start

theorem givesAt_number {f : Nat → x.Value} (home : x.home = .editor)
    (read : ∀ value, x.read? value = (parseSize? value).map f) {k : Nat} {v : x.Value} :
    GivesAt (Bytes.feedLines text) k x v ↔ ∃ n, Writes text x.key k n ∧ n < sizeLimit ∧ f n = v := by
  constructor
  · rintro ⟨line, found, within, value, pair, given⟩
    rw [read, Option.map_eq_some_iff] at given
    obtain ⟨n, number, stored⟩ := given
    obtain ⟨decimal, small⟩ := parseSize?_eq_some_iff.mp number
    exact ⟨n, ⟨line, value, found, within.symm.trans home, pair, decimal⟩, small, stored⟩
  · rintro ⟨n, ⟨line, value, found, within, pair, decimal⟩, small, rfl⟩
    refine ⟨line, found, home.trans within.symm, value, pair, ?_⟩
    rw [read, parseSize?_eq_some_iff.mpr ⟨decimal, small⟩, Option.map_some]

/-- A setting that is a number is made from the last one written that fits 64 bits. -/
theorem get_load_number {f : Nat → x.Value} (home : x.home = .editor)
    (read : ∀ value, x.read? value = (parseSize? value).map f) (s : Settings) (start : Nat)
    (kept : f start = x.get s) (text : Bytes) :
    ∃ n, LastBelow sizeLimit text x.key start n ∧ x.get (s.load text) = f n := by
  rcases get_foldl (Bytes.feedLines text) x with ⟨v, ⟨k, gives, last⟩, loaded⟩ | ⟨silent, unchanged⟩
  · obtain ⟨n, written, small, rfl⟩ := (givesAt_number home read).mp gives
    refine ⟨n, .inl ⟨k, written, small, fun later m behind again => ?_⟩, loaded s⟩
    by_contra fits
    exact last later (f m) behind ((givesAt_number home read).mpr ⟨m, again, Nat.not_le.mp fits, rfl⟩)
  · refine ⟨start, .inr ⟨fun k m written => ?_, rfl⟩, (unchanged s).trans kept.symm⟩
    by_contra fits
    exact silent k (f m) ((givesAt_number home read).mpr ⟨m, written, Nat.not_le.mp fits, rfl⟩)

theorem LastBelow.narrow {limit narrower start n : Nat} (last : LastBelow limit text key start n)
    (le : narrower ≤ limit) (small : n < narrower) : LastBelow narrower text key start n := by
  rcases last with ⟨k, written, -, later⟩ | ⟨none, same⟩
  · exact .inl ⟨k, written, small, fun next m behind again => Nat.le_trans le (later next m behind again)⟩
  · exact .inr ⟨fun k m written => Nat.le_trans le (none k m written), same⟩

/-- The bounds of the cache are exactly the last numbers written for them that fit 64 bits. So is the delay if that
number fits 32 bits; otherwise it is what is left of the number there. -/
theorem numbers_stored (s : Settings) (text : Bytes) :
    LastBelow (2 ^ 64) text (ascii "cache_max_entries") s.cache.maxEntries (s.load text).cache.maxEntries ∧
      LastBelow (2 ^ 64) text (ascii "cache_max_bytes") s.cache.maxBytes (s.load text).cache.maxBytes ∧
      ∃ delay, LastBelow (2 ^ 64) text (ascii "debounce_ms") s.debounce.toNat delay ∧
        (s.load text).debounce.toNat = delay % 2 ^ 32 ∧
        (delay < 2 ^ 32 →
          LastBelow (2 ^ 32) text (ascii "debounce_ms") s.debounce.toNat (s.load text).debounce.toNat) := by
  refine ⟨?_, ?_, ?_⟩
  · obtain ⟨n, last, stored⟩ := get_load_number (x := .maxEntries) (f := id) rfl
      (fun value => (Option.map_id_apply).symm) s s.cache.maxEntries rfl text
    have stored : (s.load text).cache.maxEntries = n := stored
    rw [stored]
    exact last
  · obtain ⟨n, last, stored⟩ := get_load_number (x := .maxBytes) (f := id) rfl
      (fun value => (Option.map_id_apply).symm) s s.cache.maxBytes rfl text
    have stored : (s.load text).cache.maxBytes = n := stored
    rw [stored]
    exact last
  · obtain ⟨delay, last, stored⟩ := get_load_number (x := .debounce) (f := Nat.toUInt32) rfl
      (fun value => rfl) s s.debounce.toNat UInt32.ofNat_toNat text
    have stored : (s.load text).debounce = delay.toUInt32 := stored
    have kept : (s.load text).debounce.toNat = delay % 2 ^ 32 := by
      rw [stored]
      exact UInt32.toNat_ofNat'
    refine ⟨delay, last, kept, fun small => ?_⟩
    rw [kept, Nat.mod_eq_of_lt small]
    exact last.narrow (by decide) small

theorem wide_delay_wraps :
    let text := ascii "[editor]\ndebounce_ms=4294967296\n"
    (({} : Settings).load text).debounce = 0 ∧ ({} : Settings).debounce = 200 ∧
      Writes text (ascii "debounce_ms") 1 4294967296 ∧ (∀ k, ¬ Writes text (ascii "debounce_ms") k 0) ∧
        ∃ delay, 2 ^ 32 ≤ delay ∧ LastBelow (2 ^ 64) text (ascii "debounce_ms") 200 delay ∧ delay % 2 ^ 32 = 0 := by
  intro text
  have loaded : (({} : Settings).load text).debounce = 0 := by decide +kernel
  have wide : Pair (ascii "debounce_ms=4294967296") (ascii "debounce_ms") (ascii "4294967296") :=
    ⟨rfl, rfl, ascii "debounce_ms", ascii "4294967296", rfl, by decide, rfl, rfl⟩
  have zero (k : Nat) : ¬ Writes text (ascii "debounce_ms") k 0 := by
    rintro ⟨line, value, found, -, pair, -, -, number⟩
    match k with
    | 0 =>
      obtain rfl := Option.some.inj found
      cases pair.unheaded
    | 1 =>
      obtain rfl := Option.some.inj found
      rw [← (wide.unique pair).2] at number
      exact absurd number (by decide)
    | k + 2 => cases found
  refine ⟨loaded, rfl, ?_, zero, ?_⟩
  · exact ⟨_, _, rfl, rfl, wide, by decide, List.all_eq_true.mp rfl, by decide⟩
  · obtain ⟨-, -, delay, last, stored, narrow⟩ := numbers_stored {} text
    rw [loaded] at stored narrow
    refine ⟨delay, Nat.not_lt.mp fun small => ?_, last, stored.symm⟩
    rcases narrow small with ⟨k, written, -⟩ | ⟨-, same⟩
    · exact zero k written
    · cases same

end Settings
end QueryService
