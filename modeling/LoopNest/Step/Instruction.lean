import LoopNest.Step.Target
import LoopNest.Template.Catalog

/-!
# Selecting instructions

Statements that match the body of a template are replaced by a call of it.
-/

namespace LoopNest

namespace Proc

def template (c : Catalog) (name : String) : Except StepError Proc :=
  match c.find? name with
  | some t => .ok t
  | none => .error (.unknownTemplate name)

/-- Put the call in the place of as many statements as the template's body has. -/
def substitute (p : Proc) (path : Path) (t : Proc) (call : Stmt) : Except StepError Proc :=
  p.withBody path (p.body.edit? (Block.splice [call] t.body.length) path)

/-- Accept a kernel whose calls fit their templates. -/
def finishCalls (p : Proc) (c : Catalog) (template : String) : Except StepError Proc :=
  match p.firstProblem? (some c.find?) with
  | none => .ok p
  | some problem =>
    if problem.violation.kind = .template then .error (.invalidCall template problem)
    else .error (.invalid problem)

/-- Replace the statements from a place on. -/
def replace (p : Proc) (c : Catalog) (name source : String) : Except StepError Proc := do
  let t ← template c name
  let path ← p.pickStmt source
  match p.matchAt t path with
  | .error reason => throw (.mismatch name reason)
  | .ok call => (← p.substitute path t call).finishCalls c name

/-- The first place that matches, in program order. Calls match nothing. -/
def firstMatch? (p : Proc) (t : Proc) : Option (Path × Stmt) :=
  p.body.visits.findSome? fun (path, s) =>
    match s with
    | .call .. => none
    | _ =>
      match p.matchAt t path with
      | .ok call => some (path, call)
      | .error _ => none

/-- Replace matches until there is none, at most `n` times. The second result says whether there
was any. -/
def replaceRounds (t : Proc) : (n : Nat) → (any : Bool) → Proc → Except StepFailure (Proc × Bool)
  | n, any, p =>
    match p.firstMatch? t with
    | none => .ok (p, any)
    | some (path, call) =>
      match n with
      | 0 => .error .endless
      | n + 1 => do replaceRounds t n true (← refusable (p.substitute path t call))

/-- The number of statements that a template could match. -/
def countMatchable (p : Proc) : Nat :=
  (p.body.nested.filter fun
    | .call .. => false
    | _ => true).length

/-- Replace all matches, in program order. Every replacement by a template with a body leaves fewer
statements that could match, so only an empty template goes on for ever. -/
def replaceAll (p : Proc) (c : Catalog) (name : String) : Except StepFailure Proc := do
  let t ← refusable (template c name)
  let (p, any) ← replaceRounds t p.countMatchable false p
  if any then refusable (p.finishCalls c name) else return p

end Proc

end LoopNest
