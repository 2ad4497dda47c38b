import QueryService.Keyword

/-!
# Spelling

The distance of two words is the number of bytes to insert, delete or replace to get from one to the
other. It is computed a row at a time: the row of a word holds its distances to the prefixes of another.
-/

namespace QueryService

namespace EditDistance

/-- The rest of a row: `left` is the entry before it, and `above` is the part of the row above that
starts one entry earlier. -/
def rowAfter (c : UInt8) (left : Nat) : Bytes → List Nat → List Nat
  | d :: text, diagonal :: above :: rest =>
    let entry := min (above + 1) (min (left + 1) (diagonal + if c = d then 0 else 1))
    entry :: rowAfter c entry text (above :: rest)
  | _, _ => []

/-- The row of a word that goes on with `c`, from the row of the word before that. -/
def nextRow (text : Bytes) (above : List Nat) (c : UInt8) : List Nat :=
  let first := above.headD 0 + 1
  first :: rowAfter c first text above

def firstRow (text : Bytes) : List Nat := List.range (text.length + 1)

end EditDistance

def editDistance (a b : Bytes) : Nat :=
  (a.foldl (EditDistance.nextRow b) (EditDistance.firstRow b)).getLastD 0

namespace Keyword

/-- Keywords at this distance from a word, or farther, are not suggested for it. -/
def suggestionLimit : Nat := 3

/-- The better of a suggestion so far and an entry of the table. A word is no suggestion for itself,
and an entry that is only as close as the one before does not replace it. -/
def closer (word : Bytes) (best : Option (Nat × Keyword)) (entry : Keyword) : Option (Nat × Keyword) :=
  let distance := editDistance word entry.lexeme
  let limit := (best.map (·.1)).getD suggestionLimit
  if 0 < distance && distance < limit then some (distance, entry) else best

/-- The keyword closest to a word, within two edits of it. Words of one or two bytes get none. -/
def suggest (word : Bytes) : Option Keyword :=
  if word.length < 3 then none
  else (table.foldl (closer (Bytes.toUpper word)) none).map (·.2)

end Keyword
end QueryService
