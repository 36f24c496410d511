import LoopNest.Step.Target

/-!
# Interchanging loops

A loop is swapped with the loop that is its whole body. Each loop keeps its mode.
-/

namespace LoopNest

namespace Proc

def reorder (p : Proc) (outer inner : String) : Except StepError Proc := do
  let (path, o, body) ← p.pickLoop outer
  let sel := (← selector inner).asLoop
  match body with
  | [.loop i ibody] =>
    if sel.pattern.fits (.loop i ibody) then
      match checkReorder o i ibody with
      | .error hazard => throw (.hazard hazard)
      | .ok () => p.replaceStmt path [.loop i [.loop o ibody]]
    else throw (.notOnlyStatement inner outer)
  | _ => throw (.notOnlyStatement inner outer)

end Proc

end LoopNest
