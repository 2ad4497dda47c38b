import Mathlib.Data.Nat.Digits.Defs
import QueryService.Proofs.Text.Case
import QueryService.Theme

/-!
# Colors in hexadecimal digits

Two digits write a channel exactly if the channel is written by them in upper case (`channel?_iff_written`). So the
texts that are read are those of six digits, and reading and writing undo each other but for the case of the digits
and the hash (`hex_codec`).
-/

namespace QueryService
namespace Color

variable {text digits : Bytes} {c : Color} {high low n : UInt8}

/-- The hexadecimal digits, in upper case and in the order of their values. -/
def hexDigits : Bytes := ascii "0123456789ABCDEF"

def IsHexDigit (d : UInt8) : Prop := Byte.toUpper d ∈ hexDigits

instance (d : UInt8) : Decidable (IsHexDigit d) := inferInstanceAs (Decidable (_ ∈ _))

/-- The text is six hexadecimal digits, with or without a hash before them. -/
structure Written (text digits : Bytes) : Prop where
  text : text = digits ∨ text = Byte.hash :: digits
  six : digits.length = 6
  hex : ∀ d ∈ digits, IsHexDigit d

/-- The number that hexadecimal digits write. -/
def hexNumber (digits : Bytes) : Nat :=
  Nat.ofDigits 16 (digits.reverse.map fun d => hexDigits.idxOf (Byte.toUpper d))

/-- The channels as one number, red being the highest. -/
def number (c : Color) : Nat := (c.red.toNat * 256 + c.green.toNat) * 256 + c.blue.toNat

/-! ### Digits -/

-- All that is decided over the bytes, at once. The value is tested as a Boolean: the test for all members of an
-- option may try each byte again.
theorem byte_digits : ∀ d,
    (IsHexDigit d ↔ (hexValue? d).isSome = true) ∧ hexValue? (Byte.toUpper d) = hexValue? d ∧
      (d < 16 → hexValue? (hexDigit d) = some d) ∧
      (hexValue? d).all (fun v => decide (v < 16 ∧ hexDigit v = Byte.toUpper d ∧
        v.toNat = hexDigits.idxOf (Byte.toUpper d))) = true :=
  Byte.forall_of_lt (by decide +kernel)

theorem isHexDigit_iff (d : UInt8) : IsHexDigit d ↔ ∃ v, hexValue? d = some v := by
  rw [(byte_digits d).1, Option.isSome_iff_exists]

theorem caseless_hexValue? : Byte.Caseless hexValue? := fun d => (byte_digits d).2.1

theorem hexValue?_hexDigit (v : UInt8) : v < 16 → hexValue? (hexDigit v) = some v := (byte_digits v).2.2.1

theorem of_hexValue? (d v : UInt8) (read : hexValue? d = some v) :
    v < 16 ∧ hexDigit v = Byte.toUpper d ∧ v.toNat = hexDigits.idxOf (Byte.toUpper d) :=
  of_decide_eq_true ((Option.all_eq_true _ _).mp (byte_digits d).2.2.2 v read)

theorem hexValue?_eq_some_iff {d v : UInt8} : hexValue? d = some v ↔ v < 16 ∧ hexDigit v = Byte.toUpper d := by
  constructor
  · intro read
    obtain ⟨small, written, -⟩ := of_hexValue? d v read
    exact ⟨small, written⟩
  · rintro ⟨small, written⟩
    rw [← caseless_hexValue?, ← written, hexValue?_hexDigit v small]

/-! ### Channels -/

theorem div_lt (n : UInt8) : n / 16 < 16 := by
  have bound := n.toNat_lt
  rw [UInt8.lt_iff_toNat_lt, UInt8.toNat_div, show (16 : UInt8).toNat = 16 from rfl]
  omega

/-- No digit is lost when two values below sixteen make one byte. -/
theorem toNat_pair {h l : UInt8} (high : h < 16) (low : l < 16) : (h * 16 + l).toNat = 16 * h.toNat + l.toNat := by
  have high : h.toNat < 16 := high
  have low : l.toNat < 16 := low
  simp only [UInt8.toNat_add, UInt8.toNat_mul, UInt8.reduceToNat]
  omega

theorem pair_div {h l : UInt8} (high : h < 16) (low : l < 16) : (h * 16 + l) / 16 = h := by
  have bound : l.toNat < 16 := low
  rw [← UInt8.toNat_inj, UInt8.toNat_div, toNat_pair high low, show (16 : UInt8).toNat = 16 from rfl]
  omega

theorem pair_mod {h l : UInt8} (high : h < 16) (low : l < 16) : (h * 16 + l) % 16 = l := by
  have bound : l.toNat < 16 := low
  rw [← UInt8.toNat_inj, UInt8.toNat_mod, toNat_pair high low, show (16 : UInt8).toNat = 16 from rfl]
  omega

theorem div_mul_add_mod (n : UInt8) : n / 16 * 16 + n % 16 = n := by
  rw [← UInt8.toNat_inj, toNat_pair (div_lt n) (UInt8.mod_lt n (by decide)), UInt8.toNat_div, UInt8.toNat_mod,
    show (16 : UInt8).toNat = 16 from rfl]
  omega

theorem channel?_iff_values : channel? high low = some n ↔
    ∃ h l, hexValue? high = some h ∧ hexValue? low = some l ∧ h * 16 + l = n := by
  simp [channel?, Option.bind_eq_some_iff]

/-- Two digits write the channel that is written by them in upper case. -/
theorem channel?_iff_written :
    channel? high low = some n ↔ formatChannel n = [Byte.toUpper high, Byte.toUpper low] := by
  rw [channel?_iff_values, formatChannel, List.cons.injEq, List.cons.injEq]
  constructor
  · rintro ⟨h, l, upper, lower, rfl⟩
    obtain ⟨small, written⟩ := hexValue?_eq_some_iff.mp upper
    obtain ⟨less, behind⟩ := hexValue?_eq_some_iff.mp lower
    rw [pair_div small less, pair_mod small less]
    exact ⟨written, behind, rfl⟩
  · rintro ⟨written, behind, -⟩
    exact ⟨n / 16, n % 16, hexValue?_eq_some_iff.mpr ⟨div_lt n, written⟩,
      hexValue?_eq_some_iff.mpr ⟨UInt8.mod_lt n (by decide), behind⟩, div_mul_add_mod n⟩

theorem channel?_formatChannel (n : UInt8) : channel? (hexDigit (n / 16)) (hexDigit (n % 16)) = some n := by
  have upper := hexValue?_hexDigit (n / 16) (div_lt n)
  have lower := hexValue?_hexDigit (n % 16) (UInt8.mod_lt n (by decide))
  exact channel?_iff_values.mpr ⟨n / 16, n % 16, upper, lower, div_mul_add_mod n⟩

theorem exists_channel (upper : IsHexDigit high) (lower : IsHexDigit low) : ∃ n, channel? high low = some n := by
  obtain ⟨h, first⟩ := (isHexDigit_iff high).mp upper
  obtain ⟨l, second⟩ := (isHexDigit_iff low).mp lower
  exact ⟨_, channel?_iff_values.mpr ⟨h, l, first, second, rfl⟩⟩

theorem of_channel? (read : channel? high low = some n) :
    IsHexDigit high ∧ IsHexDigit low ∧ n.toNat = hexNumber [high, low] := by
  obtain ⟨h, l, upper, lower, rfl⟩ := channel?_iff_values.mp read
  obtain ⟨small, -, value⟩ := of_hexValue? high h upper
  obtain ⟨less, -, rest⟩ := of_hexValue? low l lower
  refine ⟨(isHexDigit_iff high).mpr ⟨h, upper⟩, (isHexDigit_iff low).mpr ⟨l, lower⟩, ?_⟩
  rw [toNat_pair small less, value, rest]
  simp [hexNumber, Nat.ofDigits_cons, Nat.add_comm]

/-! ### Colors -/

/-- The text without a hash that it begins with. -/
def unhashed (text : Bytes) : Bytes := if text.head? = some Byte.hash then text.tail else text

theorem unhashed_written (written : Written text digits) : unhashed text = digits := by
  rcases written.text with rfl | rfl
  · rw [unhashed, if_neg]
    intro first
    have hash := written.hex Byte.hash (List.mem_of_mem_head? first)
    revert hash
    decide
  · rw [unhashed, List.head?_cons, if_pos rfl, List.tail_cons]

theorem written_unhashed (six : (unhashed text).length = 6) (hex : ∀ d ∈ unhashed text, IsHexDigit d) :
    Written text (unhashed text) := by
  refine ⟨?_, six, hex⟩
  cases text with
  | nil => exact Or.inl rfl
  | cons x rest =>
    rw [unhashed, List.head?_cons, List.tail_cons]
    split
    · next hash => exact Or.inr (by rw [Option.some.inj hash])
    · exact Or.inl rfl

theorem parse?_eq_some_iff : parse? text = some c ↔
    ∃ r₁ r₀ g₁ g₀ b₁ b₀, unhashed text = [r₁, r₀, g₁, g₀, b₁, b₀] ∧ channel? r₁ r₀ = some c.red ∧
      channel? g₁ g₀ = some c.green ∧ channel? b₁ b₀ = some c.blue ∧ c.alpha = 255 := by
  unfold parse?
  rw [← unhashed]
  constructor
  · intro read
    split at read
    · next r₁ r₀ g₁ g₀ b₁ b₀ digits =>
      simp only [bind, Option.bind_eq_some_iff, pure] at read
      obtain ⟨r, red, g, green, b, blue, opaqued⟩ := read
      obtain rfl := Option.some.inj opaqued
      exact ⟨r₁, r₀, g₁, g₀, b₁, b₀, digits, red, green, blue, rfl⟩
    · cases read
  · rintro ⟨r₁, r₀, g₁, g₀, b₁, b₀, digits, red, green, blue, solid⟩
    rw [digits]
    simp only [red, green, blue, ← solid]
    rfl

/-- A text of six digits is read as the opaque color that they write. -/
theorem exists_parse? (written : Written text digits) : ∃ c, parse? text = some c := by
  have body := unhashed_written written
  have hex := written.hex
  match digits, written.six with
  | [r₁, r₀, g₁, g₀, b₁, b₀], _ =>
    simp only [List.forall_mem_cons] at hex
    obtain ⟨hr₁, hr₀, hg₁, hg₀, hb₁, hb₀, -⟩ := hex
    obtain ⟨r, red⟩ := exists_channel hr₁ hr₀
    obtain ⟨g, green⟩ := exists_channel hg₁ hg₀
    obtain ⟨b, blue⟩ := exists_channel hb₁ hb₀
    exact ⟨⟨r, g, b, 255⟩, parse?_eq_some_iff.mpr ⟨r₁, r₀, g₁, g₀, b₁, b₀, body, red, green, blue, rfl⟩⟩

theorem of_parse? (read : parse? text = some c) :
    ∃ digits, Written text digits ∧ c.alpha = 255 ∧ c.format = Byte.hash :: Bytes.toUpper digits ∧
      c.number = hexNumber digits := by
  obtain ⟨r₁, r₀, g₁, g₀, b₁, b₀, digits, red, green, blue, solid⟩ := parse?_eq_some_iff.mp read
  obtain ⟨hr₁, hr₀, r⟩ := of_channel? red
  obtain ⟨hg₁, hg₀, g⟩ := of_channel? green
  obtain ⟨hb₁, hb₀, b⟩ := of_channel? blue
  refine ⟨unhashed text, written_unhashed (by rw [digits]; rfl) ?_, solid, ?_, ?_⟩
  · simp only [digits, List.forall_mem_cons]
    exact ⟨hr₁, hr₀, hg₁, hg₀, hb₁, hb₀, nofun⟩
  · rw [digits, format, channel?_iff_written.mp red, channel?_iff_written.mp green, channel?_iff_written.mp blue]
    rfl
  · rw [number, r, g, b, digits]
    simp only [hexNumber, List.reverse_cons, List.reverse_nil, List.nil_append, List.cons_append, List.map_cons,
      List.map_nil, Nat.ofDigits_cons, Nat.ofDigits_nil]
    omega

theorem parse?_format (solid : c.alpha = 255) : parse? c.format = some c :=
  parse?_eq_some_iff.mpr ⟨_, _, _, _, _, _, rfl, channel?_formatChannel c.red, channel?_formatChannel c.green,
    channel?_formatChannel c.blue, solid⟩

/-- Exactly the texts of six hexadecimal digits are read, with or without one hash before them. Each is read as the
opaque color of the number that its digits write, which is written as a hash and the digits in upper case. An opaque
color is read back from what is written for it. -/
theorem hex_codec :
    (∀ text, (∃ c, parse? text = some c) ↔ ∃ digits, Written text digits) ∧
      (∀ text digits c, Written text digits → parse? text = some c →
        c.alpha = 255 ∧ c.format = Byte.hash :: Bytes.toUpper digits ∧ c.number = hexNumber digits) ∧
      ∀ c, c.alpha = 255 → parse? c.format = some c := by
  refine ⟨fun text => ⟨?_, ?_⟩, ?_, fun c => parse?_format⟩
  · rintro ⟨c, read⟩
    obtain ⟨digits, written, -⟩ := of_parse? read
    exact ⟨digits, written⟩
  · rintro ⟨digits, written⟩
    exact exists_parse? written
  · intro text digits c written read
    obtain ⟨others, same, meaning⟩ := of_parse? read
    rwa [← unhashed_written written, unhashed_written same]

/-- Digits of either case with a hash; a second hash or a byte that is no digit is refused. -/
theorem mixed_case_read :
    (∃ c, parse? (ascii "#0aF3c9") = some c ∧ c.alpha = 255 ∧ c.format = ascii "#0AF3C9" ∧ c.number = 0x0AF3C9) ∧
      parse? (ascii "##0aF3c") = none ∧ parse? (ascii "0aF3cg") = none ∧
      parse? (format ⟨0x0A, 0xF3, 0xC9, 255⟩) = some ⟨0x0A, 0xF3, 0xC9, 255⟩ := by
  have written : Written (ascii "#0aF3c9") (ascii "0aF3c9") := ⟨Or.inr rfl, rfl, by decide +kernel⟩
  obtain ⟨reads, meaning, back⟩ := hex_codec
  obtain ⟨c, read⟩ := (reads _).mpr ⟨_, written⟩
  obtain ⟨solid, shown, number⟩ := meaning _ _ c written read
  refine ⟨⟨c, read, solid, shown, ?_⟩, by decide, by decide, back _ rfl⟩
  rw [number]
  decide

end Color
end QueryService
