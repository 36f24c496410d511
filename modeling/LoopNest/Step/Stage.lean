import LoopNest.Step.Target

/-!
# Staging values in temporaries

A reduction can go through a scalar, and a data expression can be computed into one before its
statement. The scalar of an expression holds every value exactly: it has the element type of a plain
read, and `f64` otherwise.
-/

namespace LoopNest

/-- Does a path down from the expression lead into the indices of a read? -/
def Expr.leadsIntoIndex : List Nat → Expr → Bool
  | [], _ => false
  | _ :: _, .read .. => true
  | i :: rest, e =>
    match e.children[i]? with
    | some child => child.leadsIntoIndex rest
    | none => false

/-- Does the expression read a buffer or hold a float? -/
def Expr.isDataValued (e : Expr) : Bool :=
  !(e.collect fun
    | .read .. | .float _ => [()]
    | _ => []).isEmpty

namespace Proc

/-- `C[i] += e` becomes `t = C[i]; t += e; C[i] = t` with a new scalar `t`. -/
def stageReduction (p : Proc) (name reduction : String) : Except StepError Proc := do
  let path ← p.pickStmt reduction
  match p.stmt? path with
  | some (.store .add b idx rhs) =>
    p.requireFresh name
    match p.visibleDecl? path b with
    | none => throw (.undeclared b)
    | some d =>
      p.replaceStmt path
        [.alloc { name, ty := d.ty, shape := [], mem := .dram },
         .store .set name [] (.read b idx),
         .store .add name [] rhs,
         .store .set b idx (.read name [])]
  | _ => throw (.select (.notFound (reduction ++ " (a reduction)")))

/-- An element type that holds every value of the expression. -/
def valueType (p : Proc) (path : Path) : Expr → Except StepError Scalar
  | .read b _ =>
    match p.visibleDecl? path b with
    | some d => .ok d.ty
    | none => .error (.undeclared b)
  | .neg e => p.valueType path e
  | _ => .ok .f64

/-- Compute a data expression into a new scalar before its statement, and read that in its place. -/
def bindExpr (p : Proc) (name source : String) : Except StepError Proc := do
  let (path, slot, steps) ← match p.resolveExpr? (← selector source) with
    | .ok cursor => pure cursor
    | .error e => throw (.select e)
  match p.stmt? path with
  | some (.store u b idx rhs) =>
    if slot ≠ idx.length || rhs.leadsIntoIndex steps then throw (.indexExpression source)
    match rhs.get? steps with
    | none => throw (.indexExpression source)
    | some value =>
      if !value.isDataValued then throw (.notDataValue value)
      p.requireFresh name
      let ty ← p.valueType path value
      let rhs := (Expr.set? (.read name []) steps rhs).getD rhs
      p.replaceStmt path
        [.alloc { name, ty, shape := [], mem := .dram },
         .store .set name [] value,
         .store u b idx rhs]
  | _ => throw (.indexExpression source)

end Proc

end LoopNest
