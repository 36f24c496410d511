import LoopNest.Step.Target

/-!
# Lifting allocations

An allocation moves out of enclosing scopes. Every parallel loop that it leaves, or every loop if
dimensions are kept, adds a leading dimension with the extent of the loop, outermost first, and the
loop's variable becomes the index there: iterations keep separate storage. The iterations of any
other loop share one slot.
-/

namespace LoopNest

/-- Put more indices in front of every read of a buffer. -/
def Expr.prependIndices (buf : String) (lead : List Expr) : Expr → Expr :=
  Expr.rebuild .var fun b idx => .read b (if b = buf then lead ++ idx else idx)

/-- Put more indices in front wherever this very statement writes, reads or passes a buffer. -/
def Stmt.prependHere (buf : String) (lead : List Expr) (s : Stmt) : Stmt :=
  match s.mapExprs (·.prependIndices buf lead) with
  | .store u b idx rhs => .store u b (if b = buf then lead ++ idx else idx) rhs
  | .call t args =>
    .call t (args.map fun w =>
      if w.buf = buf then { w with dims := lead.map .point ++ w.dims } else w)
  | s => s

namespace Proc

/-- The loops that add a dimension, outermost first: those of `lifted`, which is innermost first,
that are parallel, or all of them. -/
def addedDims (keepDims : Bool) (lifted : List Stmt) : List Header :=
  (lifted.reverse.filterMap (·.header?)).filter fun h => h.mode = .par || keepDims

def liftAlloc (p : Proc) (alloc : String) (lifts : Nat) (keepDims : Bool) :
    Except StepError Proc := do
  let (path, d) ← p.pickAlloc alloc
  if lifts = 0 then p.finish
  else
    let ancestors := p.ancestors path
    if ancestors.length < lifts then throw (.liftDepth d.name ancestors.length lifts)
    let lifted := (ancestors.take lifts).map (·.2)
    let vars := lifted.filterMap fun s => s.header?.map (·.var)
    let varies (e : Expr) : Bool := vars.any fun v => e.mentions v
    if d.shape.any varies then throw (.shapeVaries d.name)
    let dims := addedDims keepDims lifted
    match dims.find? fun h => varies h.bound with
    | some h => throw (.extentVaries h.var)
    | none =>
      let outermost := path.take (path.length - lifts)
      let inTarget (q : Path) : Bool := outermost.dropLast.isPrefixOf q
      let clash := p.body.visits.any fun (q, s) =>
        (s.decl?.any fun e => e.name = d.name) && q ≠ path && inTarget q
      if clash then throw (.hiddenAlloc d.name)
      let lead := dims.map fun h => Expr.var h.var
      let new : Decl := { d with shape := dims.map (·.bound) ++ d.shape }
      let body := (p.body.replace? path []).bind fun b =>
        (b.get? outermost).bind fun s =>
          b.replace? outermost [.alloc new, s.map (·.prependHere d.name lead)]
      (← p.withBody outermost body).finish

end Proc

end LoopNest
