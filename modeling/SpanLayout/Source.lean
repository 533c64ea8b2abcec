/-!
# Positions in the source text

Every fragment, symbol and error carries the position of the statement it came from.
-/

namespace SpanLayout

/-- A stretch of source text: line and column as a reader counts them, and its place in the file. -/
structure SourcePos where
  line : Nat
  col : Nat
  offset : Nat
  len : Nat
deriving DecidableEq, Repr

namespace SourcePos

/-- The position of something that stands nowhere in the source. -/
def unknown : SourcePos := ⟨0, 0, 0, 0⟩

/-- The beginning of line `n`. -/
def ofLine (n : Nat) : SourcePos := ⟨n, 1, 0, 0⟩

/-- A position as messages show it. -/
def render (p : SourcePos) : String := s!"{p.line}:{p.col}"

end SourcePos

end SpanLayout
