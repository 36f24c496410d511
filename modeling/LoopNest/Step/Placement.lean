import LoopNest.Step.Target

/-!
# Placing buffers in memory

An allocation can move to another memory space. A register buffer can be taken apart along one
dimension, if every access has a constant index there.
-/

namespace LoopNest

namespace Proc

/-- Move an allocation to another memory space. The calls that pass it must still fit. -/
def setMemory (p : Proc) (templates : Scope.Templates) (alloc : String) (space : Space) :
    Except StepError Proc := do
  let name := String.ofList (Text.trim alloc.toList)
  if (p.bufferParam? name).isSome then throw (.paramPlacement name)
  let (path, d) ← p.pickAlloc alloc
  if !space.supports d.ty then throw (.unsupported space d.ty d.name)
  let p ← p.withBody path (p.body.replace? path [.alloc { d with mem := space }])
  match p.firstProblem? templates with
  | none => return p
  | some problem =>
    match problem.violation.kind with
    | .memory | .template => throw (.invalidPlacement problem)
    | _ => throw (.invalid problem)

end Proc

/-- A buffer that is taken apart along a dimension, and the names of its parts. -/
structure Parts where
  buf : String
  dim : Nat
  names : List String

namespace Parts

/-- The part that an index selects. -/
def select (ps : Parts) (index : Expr) : Except StepError String :=
  match index.constant? with
  | none => .error (.variableIndex index ps.buf)
  | some k =>
    match if 0 ≤ k then ps.names[k.toInt.toNat]? else none with
    | some name => .ok name
    | none => .error (.partOutside k ps.buf)

/-- Let an access use a part in the place of the buffer. -/
def access (ps : Parts) (buf : String) (idx : List Expr) :
    Except StepError (String × List Expr) :=
  if buf ≠ ps.buf then .ok (buf, idx)
  else
    match idx[ps.dim]? with
    | none => .ok (buf, idx)
    | some index => do return (← ps.select index, idx.eraseIdx ps.dim)

mutual

/-- Let all reads in an expression use parts, from the outside in. -/
def expr (ps : Parts) : Expr → Except StepError Expr
  | .read b idx =>
    match if b = ps.buf then idx[ps.dim]? else none with
    | none => do return .read b (← ps.exprs idx)
    | some index => do
      let part ← ps.select index
      return .read part (← ps.exprsExcept ps.dim idx)
  | .binary op l r => do
    let l ← ps.expr l
    return .binary op l (← ps.expr r)
  | .neg e => do return .neg (← ps.expr e)
  | e => .ok e

def exprs (ps : Parts) : List Expr → Except StepError (List Expr)
  | [] => .ok []
  | e :: es => do
    let e ← ps.expr e
    return e :: (← ps.exprs es)

/-- All but the expression at a position, which is left out. -/
def exprsExcept (ps : Parts) : Nat → List Expr → Except StepError (List Expr)
  | _, [] => .ok []
  | 0, _ :: es => ps.exprs es
  | n + 1, e :: es => do
    let e ← ps.expr e
    return e :: (← ps.exprsExcept n es)

end

def window (ps : Parts) (w : Window) : Except StepError Window :=
  if w.buf ≠ ps.buf then .ok w
  else
    match w.dims[ps.dim]? with
    | none => .ok w
    | some (.interval _ _) => .error (.variableWindow ps.dim ps.buf)
    | some (.point index) => do
      return { buf := ← ps.select index, dims := w.dims.eraseIdx ps.dim }

/-- Let this very statement use parts: first in its expressions, then where it writes or passes the
buffer. -/
def here (ps : Parts) (s : Stmt) : Except StepError Stmt := do
  match s.withExprs (← ps.exprs s.exprs) with
  | .store u b idx rhs =>
    let (b, idx) ← ps.access b idx
    return .store u b idx rhs
  | .call t args => return .call t (← args.mapM ps.window)
  | s => return s

mutual

def stmt (ps : Parts) : Stmt → Except StepError Stmt
  | .loop h body => do
    let s ← ps.here (.loop h [])
    return s.withBody (← ps.stmts body)
  | .guard c body => do
    let s ← ps.here (.guard c [])
    return s.withBody (← ps.stmts body)
  | .store u b idx rhs => ps.here (.store u b idx rhs)
  | .alloc d => ps.here (.alloc d)
  | .call t args => ps.here (.call t args)

def stmts (ps : Parts) : List Stmt → Except StepError (List Stmt)
  | [] => .ok []
  | s :: rest => do
    let s ← ps.stmt s
    return s :: (← ps.stmts rest)

end

end Parts

namespace Proc

/-- Replace a register buffer by one buffer for each index of a dimension. -/
def unrollBuffer (p : Proc) (alloc : String) (dim : Nat) : Except StepError Proc := do
  let (path, d) ← p.pickAlloc alloc
  if !d.mem.isRegister then throw (.notRegister d.name d.mem)
  match d.shape[dim]? with
  | none => throw (.noDimension d.name d.rank dim)
  | some extent =>
    match extent.constant? with
    | none => throw (.variableExtent d.name dim)
    | some n =>
      let names := (List.range n.toInt.toNat).map fun k => d.name ++ "_" ++ toString k
      names.forM p.requireFresh
      let parts := names.map fun name => Stmt.alloc { d with name, shape := d.shape.eraseIdx dim }
      match p.container? path with
      | none => throw (.noStatement path)
      | some b =>
        let rest ← (Parts.mk d.name dim names).stmts (b.drop (path.position + 1))
        let new := b.take path.position ++ parts ++ rest
        (← p.withBody path (p.body.edit? (fun _ _ => new) path)).finish

end Proc

end LoopNest
