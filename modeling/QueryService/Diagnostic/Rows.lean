import QueryService.Diagnostic.Spelling

/-!
# Distances in two rows

The same distance in the space of two rows. Both are made once and change places after every byte, so
each new entry is written over one that is left of the row before the last.
-/

namespace QueryService
namespace EditDistance

structure Rows (width : Nat) where
  /-- The row of the bytes that are done. -/
  above : Vector Nat width
  /-- The row that is written over. -/
  below : Vector Nat width

namespace Rows

variable {text : Bytes}

/-- The lower row when its entries up to this column are those of the word that goes on with `c`, which
is the byte of this number. -/
def fill (rows : Rows (text.length + 1)) (number : Nat) (c : UInt8) :
    (column : Nat) → column ≤ text.length → Vector Nat (text.length + 1)
  | 0, _ => rows.below.set 0 number
  | column + 1, inside =>
    let done := rows.fill number c column (by omega)
    done.set (column + 1)
      (min (rows.above[column + 1] + 1)
        (min (done[column] + 1) (rows.above[column] + if c = text[column] then 0 else 1)))

/-- Fills the lower row and lets the two change places. -/
def pass (rows : Rows (text.length + 1)) (number : Nat) (c : UInt8) : Rows (text.length + 1) :=
  ⟨rows.fill number c text.length (Nat.le_refl _), rows.above⟩

/-- A pass for each byte, of which the first has this number. -/
def passes (rows : Rows (text.length + 1)) (number : Nat) : Bytes → Rows (text.length + 1)
  | [] => rows
  | c :: rest => (rows.pass number c).passes (number + 1) rest

end Rows

/-- The distance by way of two rows, of which the second may hold anything at first. -/
def inPlace (a text : Bytes) (stale : Vector Nat (text.length + 1)) : Nat :=
  (Rows.passes ⟨Vector.range (text.length + 1), stale⟩ 1 a).above[text.length]

end EditDistance
end QueryService
