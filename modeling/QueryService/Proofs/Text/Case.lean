import QueryService.Proofs.Text.Bytes
import QueryService.Proofs.Text.Position

/-!
# Texts in upper case

No class of bytes that the language knows tells a small letter from its capital, so a text in upper case
has its lines and positions where the text itself has them.
-/

namespace QueryService

namespace Byte

theorem forall_of_lt {p : UInt8 → Prop} (all : ∀ n, ∀ inside : n < 256, p (UInt8.ofNatLT n inside)) (c : UInt8) :
    p c := all c.toNat c.toNat_lt

/-- The function takes a small letter and its capital for the same. -/
def Caseless {β : Type} (f : UInt8 → β) : Prop := ∀ c, f (toUpper c) = f c

instance {β : Type} [DecidableEq β] (f : UInt8 → β) : Decidable (Caseless f) :=
  decidable_of_iff (∀ n, ∀ inside : n < 256, f (toUpper (UInt8.ofNatLT n inside)) = f (UInt8.ofNatLT n inside))
    ⟨fun all c => all c.toNat c.toNat_lt, fun caseless _ _ => caseless _⟩

/-- The classes of bytes that the language knows. -/
def classes : List (UInt8 → Bool) :=
  [isBlank, isBreak, isSpace, isLetter, isDigit, isWordStart, isWordPart, isQuote, isExponentMark, isSign,
    isContinuation]

-- Not decided as it stands: an instance for all functions of bytes would try each of them.
theorem caseless_classes : ∀ p ∈ classes, Caseless p := by
  have all : classes.all (fun p => decide (Caseless p)) = true := by decide +kernel
  intro p listed
  exact of_decide_eq_true (List.all_eq_true.mp all p listed)

@[simp] theorem caseless_isBlank : Caseless isBlank := caseless_classes _ (by simp [classes])

@[simp] theorem caseless_isBreak : Caseless isBreak := caseless_classes _ (by simp [classes])

@[simp] theorem caseless_isSpace : Caseless isSpace := caseless_classes _ (by simp [classes])

@[simp] theorem caseless_isLetter : Caseless isLetter := caseless_classes _ (by simp [classes])

@[simp] theorem caseless_isDigit : Caseless isDigit := caseless_classes _ (by simp [classes])

@[simp] theorem caseless_isWordStart : Caseless isWordStart := caseless_classes _ (by simp [classes])

@[simp] theorem caseless_isWordPart : Caseless isWordPart := caseless_classes _ (by simp [classes])

@[simp] theorem caseless_isQuote : Caseless isQuote := caseless_classes _ (by simp [classes])

@[simp] theorem caseless_isExponentMark : Caseless isExponentMark := caseless_classes _ (by simp [classes])

@[simp] theorem caseless_isSign : Caseless isSign := caseless_classes _ (by simp [classes])

@[simp] theorem caseless_isContinuation : Caseless isContinuation := caseless_classes _ (by simp [classes])

theorem toUpper_of_not_letter {c : UInt8} (plain : isLetter c = false) : toUpper c = c := by
  rw [toUpper, if_neg]
  rw [isLetter, Bool.or_eq_false_iff] at plain
  rw [plain.2]
  exact Bool.false_ne_true

/-- A byte that is no letter is not hit by putting letters in upper case. -/
theorem toUpper_eq_iff {c mark : UInt8} (plain : isLetter mark = false) : toUpper c = mark ↔ c = mark := by
  cases letter : isLetter c with
  | false => rw [toUpper_of_not_letter letter]
  | true =>
    constructor
    · rintro rfl
      rw [caseless_isLetter, letter] at plain
      cases plain
    · rintro rfl
      rw [letter] at plain
      cases plain

theorem caseless_beq {mark : UInt8} (plain : isLetter mark = false) : Caseless (· == mark) := by
  intro c
  rw [Bool.eq_iff_iff, beq_iff_eq, beq_iff_eq, toUpper_eq_iff plain]

theorem plain_of_isQuote (c : UInt8) (quote : isQuote c = true) : isLetter c = false := by
  rw [isQuote, Bool.or_eq_true, beq_iff_eq, beq_iff_eq] at quote
  rcases quote with rfl | rfl <;> rfl

theorem Caseless.not {p : UInt8 → Bool} (caseless : Caseless p) : Caseless (!p ·) := fun c => congrArg _ (caseless c)

end Byte

namespace Bytes

open Byte (Caseless)

variable {p : UInt8 → Bool} {word : Bytes}

@[simp] theorem toUpper_nil : toUpper [] = [] := rfl

@[simp] theorem toUpper_cons (c : UInt8) (rest : Bytes) : toUpper (c :: rest) = Byte.toUpper c :: toUpper rest := rfl

@[simp] theorem length_toUpper (text : Bytes) : (toUpper text).length = text.length := List.length_map _

@[simp] theorem drop_toUpper (n : Nat) (text : Bytes) : (toUpper text).drop n = toUpper (text.drop n) :=
  List.map_drop.symm

@[simp] theorem take_toUpper (n : Nat) (text : Bytes) : (toUpper text).take n = toUpper (text.take n) :=
  List.map_take.symm

theorem toUpper_eq_iff {text : Bytes} (plain : ∀ mark ∈ word, Byte.isLetter mark = false) :
    toUpper text = word ↔ text = word := by
  induction text generalizing word with
  | nil => rfl
  | cons c rest ih =>
    cases word with
    | nil => simp
    | cons mark word =>
      rw [List.forall_mem_cons] at plain
      rw [toUpper_cons, List.cons.injEq, List.cons.injEq, Byte.toUpper_eq_iff plain.1, ih plain.2]

theorem dropWhile_toUpper (caseless : Caseless p) (text : Bytes) :
    (toUpper text).dropWhile p = toUpper (text.dropWhile p) := by
  rw [toUpper, List.dropWhile_map, show p ∘ Byte.toUpper = p from funext caseless]
  rfl

@[simp] theorem run_toUpper (caseless : Caseless p) (text : Bytes) : run p (toUpper text) = run p text := by
  rw [run, run, toUpper, List.takeWhile_map, show p ∘ Byte.toUpper = p from funext caseless, List.length_map]

theorem trim_toUpper (caseless : Caseless p) (text : Bytes) : trim p (toUpper text) = toUpper (trim p text) := by
  rw [trim, trimEnd, dropWhile_toUpper caseless, toUpper, ← List.map_reverse]
  show ((toUpper _).dropWhile p).reverse = _
  rw [dropWhile_toUpper caseless, toUpper, ← List.map_reverse]
  rfl

end Bytes

theorem endsLine_toUpper (c : UInt8) (rest : Bytes) :
    endsLine (Byte.toUpper c) (Bytes.toUpper rest) = endsLine c rest := by
  have feed : (Byte.toUpper c == Byte.lf) = (c == Byte.lf) := Byte.caseless_beq (by decide) c
  have back : (Byte.toUpper c == Byte.cr) = (c == Byte.cr) := Byte.caseless_beq (by decide) c
  have next : ((Bytes.toUpper rest).head? != some Byte.lf) = (rest.head? != some Byte.lf) := by
    cases rest with
    | nil => rfl
    | cons d rest => exact congrArg (!·) (Byte.caseless_beq (by decide : Byte.isLetter Byte.lf = false) d)
  rw [endsLine, endsLine, feed, back, next]

theorem advance_toUpper (p : Position) (n : Nat) (text : Bytes) :
    p.advance n (Bytes.toUpper text) = p.advance n text := by
  induction n generalizing p text with
  | zero => simp
  | succ n ih =>
    cases text with
    | nil => rfl
    | cons c rest =>
      rw [Bytes.toUpper_cons, Position.advance_cons, Position.advance_cons, ih, Position.step, Position.step,
        endsLine_toUpper]

theorem lineStarts_toUpper (text : Bytes) : lineStarts (Bytes.toUpper text) = lineStarts text := by
  have later (offset : Nat) : laterLineStarts offset (Bytes.toUpper text) = laterLineStarts offset text := by
    induction text generalizing offset with
    | nil => rfl
    | cons c rest ih => rw [Bytes.toUpper_cons, laterLineStarts, laterLineStarts, ih, endsLine_toUpper]
  rw [lineStarts, lineStarts, later]

end QueryService
