import LoopNest.Step.Target

/-!
# Loop fission

The scopes around a statement are cut right after it, from the inside out, so that what comes before
the cut and what comes after it run in two copies of the scope.

A loop can also be cut when one half does not depend on its variable and running that half once
means the same as running it in every iteration. The half then moves out of the loop:

- copies `D[e] = S[f]` before the cut that are undone by `S[f] = D[e]` after it change nothing from
  the second iteration on, so they run once before the loop;
- assignments after the cut that read nothing they write, and whose targets the part before never
  touches, only matter in the last iteration, so they run once after the loop.

Both need a loop that runs at least once.
-/

namespace LoopNest

/-- Loops, one directly inside the other, around a single copy from one buffer to another. -/
structure CopyNest where
  loops : List (String × Expr)
  dst : String
  dstIdx : List Expr
  src : String
  srcIdx : List Expr

namespace CopyNest

def ofStmt? : Stmt → Option CopyNest
  | .loop h [s] => do
    let c ← ofStmt? s
    return { c with loops := (h.var, h.bound) :: c.loops }
  | .store .set b idx (.read src srcIdx) => if src = b then none else some ⟨[], b, idx, src, srcIdx⟩
  | _ => none

/-- Does `r` copy back what `c` copies, in the same iterations? -/
def undoes (r c : CopyNest) : Bool :=
  pairwise (fun a b => a.1 == b.1 && a.2 == b.2) r.loops c.loops &&
    r.dst == c.src && pairwise Expr.sameIndex r.dstIdx c.srcIdx &&
    r.src == c.dst && pairwise Expr.sameIndex r.srcIdx c.dstIdx

/-- Do different iterations copy different elements? -/
def isInjective (c : CopyNest) : Bool :=
  let loops := c.loops.map fun (v, bound) => (v, bound.constant?)
  let source : Access := ⟨c.src, c.srcIdx.map some, true, loops⟩
  let pinned := Access.pinned [] source source
  loops.all fun (v, _) => pinned.contains v

/-- Is the copy undone by one of these statements, with no write to either buffer after that? -/
def isUndoneBy (c : CopyNest) : Block → Bool
  | [] => false
  | s :: rest =>
    if ((ofStmt? s).map (·.undoes c)).getD false then
      c.isInjective &&
        !(Access.ofBlock [] rest).any fun a => a.write && (a.buf == c.src || a.buf == c.dst)
    else c.isUndoneBy rest

end CopyNest

/-- May what stands before the cut of a loop over `var` run once before the loop? -/
def isHoistable (var : String) (before after : Block) : Bool :=
  !before.mentions var &&
    match before.mapM CopyNest.ofStmt? with
    | none => false
    | some copies =>
      (copies.map (·.dst)).eraseDups.length == copies.length &&
        copies.all fun c => !copies.any (·.src == c.dst) && c.isUndoneBy after

/-- May what stands after the cut of a loop over `var` run once after the loop? -/
def isSinkable (var : String) (before after : Block) : Bool :=
  !after.mentions var &&
    (after.nested.all fun
      | .loop .. | .store .set .. => true
      | _ => false) &&
    let accesses := Access.ofBlock [] after
    let written := (accesses.filter (·.write)).map (·.buf)
    !(accesses.any fun a => !a.write && written.contains a.buf) &&
      !written.any fun b => before.touches b

/-- Cut a loop. The result is what takes its place, and the position of the last statement that
holds code from before the cut. -/
def cutLoop (sizes : List String) (h : Header) (before after : Block) :
    Except StepError (Block × Nat) :=
  match checkFission h before after with
  | .ok () => .ok ([.loop h before, .loop h after], 0)
  | .error hazard =>
    if !h.bound.isPositive sizes then .error (.hazard hazard)
    else if isHoistable h.var before after then
      .ok (before ++ [.loop h after], before.length - 1)
    else if isSinkable h.var before after then .ok (.loop h before :: after, 0)
    else .error (.hazard hazard)

/-- Cut a scope. -/
def cutScope (sizes : List String) (path : Path) (s : Stmt) (before after : Block) :
    Except StepError (Block × Nat) :=
  match checkPrivate before after with
  | .error hazard => .error (.hazard hazard)
  | .ok () =>
    match s with
    | .guard c _ => .ok ([.guard c before, .guard c after], 0)
    | .loop h _ => cutLoop sizes h before after
    | _ => .error (.noStatement path)

/-- Cut `n` scopes around the statement at `point`, each after the place of the cut before. -/
def cutScopes (sizes : List String) : (n : Nat) → (point : Path) → Block → Except StepError Block
  | 0, _, b => .ok b
  | n + 1, point, b => do
    let some parent := point.parent? | throw (.noStatement point)
    let some s := b.get? parent | throw (.noStatement parent)
    let some body := s.body? | throw (.noStatement parent)
    let before := body.take (point.position + 1)
    let after := body.drop (point.position + 1)
    if after.isEmpty then cutScopes sizes n parent b
    else
      let (new, last) ← cutScope sizes parent s before after
      let some b := b.replace? parent new | throw (.noStatement parent)
      cutScopes sizes n (parent.sibling (parent.position + last)) b

namespace Proc

/-- Cut the `lifts` innermost scopes around a statement right after it. -/
def fissionAfter (p : Proc) (stmt : String) (lifts : Nat) : Except StepError Proc := do
  let path ← p.pickStmt stmt
  if path.length - 1 < lifts then throw (.fissionDepth stmt (path.length - 1) lifts)
  let body ← cutScopes p.sizes lifts path p.body
  { p with body }.finish

end Proc

end LoopNest
