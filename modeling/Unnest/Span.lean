/-!
# Spans

The stretch of a source file that an op came from.
-/

namespace Unnest

/-- A stretch of source text. -/
structure Span where
  file : Nat
  lo : Nat
  hi : Nat
  deriving DecidableEq, Inhabited

namespace Span

/-- How listings print a span. -/
def text (s : Span) : String :=
  "Span(" ++ toString s.file ++ ":" ++ toString s.lo ++ "-" ++ toString s.hi ++ ")"

/-- The smallest span covering both. Spans of different files have none: the first is kept. -/
def merge (s t : Span) : Span :=
  if s.file = t.file then { file := s.file, lo := min s.lo t.lo, hi := max s.hi t.hi } else s

@[simp] theorem merge_self (s : Span) : s.merge s = s := by
  simp [merge]

end Span

end Unnest
