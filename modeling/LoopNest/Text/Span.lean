import LoopNest.Word

/-!
# Spans of text
-/

namespace LoopNest

/-- The bytes from `start` to before `stop`. -/
structure Span where
  start : Nat
  stop : Nat
deriving DecidableEq

/-- The span with at least one byte. There is none behind the largest place of 64 bits. -/
def Span.nonempty? (s : Span) : Option Span :=
  if s.start + 1 < 2 ^ 64 then some ⟨s.start, max s.stop (s.start + 1)⟩ else none

end LoopNest
