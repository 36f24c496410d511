import LoopNest.Step.Target

/-!
# Splitting loops

`for v in N` becomes an outer and an inner loop over `factor`, with `factor * outer + inner` in the
place of `v`. A perfect split needs a bound that is a multiple of the factor; any other guards the
body.
-/

namespace LoopNest

namespace Affine

/-- Divide all coefficients and the constant, if all are multiples. -/
def quotient? (a : Affine) (k : Word) : Option Affine := do
  let exact (c : Word) : Option Word := do
    if (← Word.mod? c k) = 0 then Word.div? c k else none
  let terms ← a.terms.mapM fun (v, c) => do return (v, ← exact c)
  return ⟨terms, ← exact a.constant⟩

end Affine

namespace Proc

/-- The index of the old loop in terms of the new ones. -/
def splitIndex (factor : Word) (outer inner : String) : Expr :=
  .add (.mul (.int factor) (.var outer)) (.var inner)

/-- How often the outer loop runs when the last round of the inner one may be incomplete. -/
def roundedUp (bound : Expr) (factor : Word) : Except StepFailure Expr :=
  match bound.int? with
  | some n =>
    match (Word.add? n factor).bind (Word.sub? · 1) with
    | none => .error .overflow
    | some m => .ok (.int ((Word.div? m factor).getD 0))
  | none => .ok (.div (.add bound (.int (factor - 1))) (.int factor))

def split (p : Proc) (loop : String) (factor : Word) (outer inner : String) (perfect : Bool) :
    Except StepFailure Proc := do
  if factor ≤ 0 then throw (.refused (.factor factor))
  let (path, h, body) ← refusable (p.pickLoop loop)
  if outer = inner then throw (.refused (.nameTaken outer))
  refusable (p.requireFresh outer)
  refusable (p.requireFresh inner)
  let index := splitIndex factor outer inner
  let body := body.substVar h.var index
  let (bound, body) ←
    if perfect then
      match (Affine.ofExpr? h.bound).bind (·.quotient? factor) with
      | some q => pure (q.toExpr, body)
      | none => throw (.refused (.notDivisible h.bound factor))
    else pure (← roundedUp h.bound factor, [Stmt.guard (.binary .lt index h.bound) body])
  let new := .loop { var := outer, bound, mode := h.mode }
    [.loop { var := inner, bound := .int factor, mode := h.mode } body]
  refusable (p.replaceStmt path [new])

end Proc

end LoopNest
