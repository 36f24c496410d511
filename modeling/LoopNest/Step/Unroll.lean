import LoopNest.Step.Target

/-!
# Loop modes and unrolling

A loop with a constant number of iterations is replaced by one copy of its body for each. The
allocations of a copy get names of their own.
-/

namespace LoopNest

namespace Proc

/-- Make a parallel loop sequential. -/
def parToSeq (p : Proc) (loop : String) : Except StepError Proc := do
  let (path, h, body) ← p.pickLoop loop
  match h.mode with
  | .seq => throw (.alreadySequential h.var)
  | .par => p.replaceStmt path [.loop { h with mode := .seq } body]

/-- Rename the allocations `allocs` of a copy of a body, each to a new name that starts with
`name_k`. The names taken so far go along. -/
def renameCopy (k : Nat) (allocs : List String) (taken : List String) (body : Block) :
    List String × Block :=
  allocs.foldl (fun (taken, body) name =>
    let new := freshName taken (name ++ "_" ++ toString k)
    (new :: taken, body.renameBuffer name new)) (taken, body)

/-- `n` copies of a loop's body, from iteration `k` on. -/
def copies (var : String) (allocs : List String) (body : Block) :
    (n k : Nat) → (taken : List String) → Block
  | 0, _, _ => []
  | n + 1, k, taken =>
    let (taken, copy) := renameCopy k allocs taken (body.substVar var (.int (Int64.ofNat k)))
    copy ++ copies var allocs body n (k + 1) taken

def unroll (p : Proc) (loop : String) : Except StepError Proc := do
  let (path, h, body) ← p.pickLoop loop
  match h.bound.constant? with
  | none => throw (.variableLoop loop)
  | some n =>
    p.replaceStmt path
      (copies h.var (sortedNames body.allocated) body n.toInt.toNat 0 p.boundNames)

end Proc

end LoopNest
