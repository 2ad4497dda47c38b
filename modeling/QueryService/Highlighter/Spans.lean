import QueryService.Highlighter

/-!
# Styled lines

A line is shown as spans, one for each token on it; only block comments reach over several lines. What
a failed statement covers is marked as an error.
-/

namespace QueryService

structure StyledSpan where
  column : Nat
  length : Nat
  category : ColorCategory
  color : Color
  error : Bool
  deriving DecidableEq, Repr

namespace Token

/-- The column and the length of the part of a token that lies on a line. -/
def pieceOnLine (t : Token) (line : Nat) : Option (Nat × Nat) :=
  if line < t.line then none
  else (splitLines t.value)[line - t.line]?.map fun piece =>
    (if line = t.line then t.column else 0, piece.length)

end Token

namespace Highlighter

/-- Whether a statement is to be marked on a line: it failed, and its report says so of that line. -/
def failsOn (h : Highlighter) (s : Statement) (line : Nat) : Bool × Highlighter :=
  if !s.onLine line || s.dirty || s.valid then (false, h)
  else
    let (report, h) := h.result s.code
    (report.any (·.invalidLines.contains (line - s.first.line)), h)

/-- The statements to be marked on a line. -/
def failedOn (h : Highlighter) (line : Nat) : List Statement × Highlighter :=
  h.statements.entries.foldl
    (fun (found, h) entry =>
      let (fails, h) := h.failsOn entry.statement line
      (if fails then found ++ [entry.statement] else found, h))
    ([], h)

def styled (theme : Theme) (failed : List Statement) (line : Nat) (t : Token) : Option StyledSpan :=
  if t.kind = .whitespace ∨ t.kind = .newline then none
  else match t.pieceOnLine line with
    | none | some (_, 0) => none
    | some (column, length) =>
      let category := ColorCategory.ofKind t.kind
      let marked := failed.any fun s => s.start ≤ t.start && t.start < s.stop
      some
        { column, length, category
          color := theme.color category
          error := t.kind == .unknown || t.isSignificant && marked }

/-- The spans of a line from left to right, none beyond the last line. -/
def lineSpans (h : Highlighter) (line : Nat) : List StyledSpan × Highlighter :=
  if h.lineCount ≤ line then ([], h)
  else
    let (failed, h) := h.failedOn line
    (h.documentTokens.filterMap (styled h.theme failed line), h)

end Highlighter
end QueryService
