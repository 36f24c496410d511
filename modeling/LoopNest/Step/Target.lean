import LoopNest.Step.Error

/-!
# What a step works on

Steps name their targets by selectors, which are resolved against the kernel at hand, and check the
kernel that they build.
-/

namespace LoopNest

namespace Proc

def selector (source : String) : Except StepError Selector :=
  match Selector.parse source with
  | .ok s => .ok s
  | .error e => .error (.badSelector source e.message)

def pick (p : Proc) (sel : Selector) : Except StepError Path :=
  match p.resolveStmt? sel with
  | .ok path => .ok path
  | .error e => .error (.select e)

/-- Any statement. -/
def pickStmt (p : Proc) (source : String) : Except StepError Path := do
  p.pick (← selector source)

/-- A loop; a bare name means the loop over it. -/
def pickLoop (p : Proc) (source : String) : Except StepError (Path × Header × Block) := do
  let sel := (← selector source).asLoop
  let path ← p.pick sel
  match p.stmt? path with
  | some (.loop h body) => return (path, h, body)
  | _ => throw (.select (.notFound sel.source))

/-- An allocation; a bare name means the allocation of it. -/
def pickAlloc (p : Proc) (source : String) : Except StepError (Path × Decl) := do
  let sel := (← selector source).asAlloc
  let path ← p.pick sel
  match p.stmt? path with
  | some (.alloc d) => return (path, d)
  | _ => throw (.select (.notFound sel.source))

/-- Refuse a name that is bound anywhere. -/
def requireFresh (p : Proc) (name : String) : Except StepError Unit :=
  if p.boundNames.contains name then .error (.nameTaken name) else .ok ()

/-- Accept a kernel that is well formed, calls left unchecked. -/
def finish (p : Proc) : Except StepError Proc :=
  match p.firstProblem? none with
  | none => .ok p
  | some problem => .error (.invalid problem)

/-- Put another body into the kernel; `path` is where it was changed. -/
def withBody (p : Proc) (path : Path) : Option Block → Except StepError Proc
  | some body => .ok { p with body }
  | none => .error (.noStatement path)

/-- Put statements in the place of the one at `path`, and check. -/
def replaceStmt (p : Proc) (path : Path) (new : Block) : Except StepError Proc := do
  (← p.withBody path (p.body.replace? path new)).finish

end Proc

end LoopNest
