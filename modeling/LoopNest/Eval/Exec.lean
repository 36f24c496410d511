import LoopNest.Eval.Env
import LoopNest.Template.Catalog
import LoopNest.Tensor

/-!
# Running statements

Tensors live in a store and are numbered in the order of their allocation. A block gives back what it
allocated, also when it fails. A call runs the body of its template in an environment that holds only
the parameters, as views of the caller's tensors. How deep calls may be nested is a parameter.
-/

namespace LoopNest

/-- The tensors that exist. -/
abbrev Store (α : Type) := List (Tensor α)

namespace Store

variable {α : Type}

/-- The element that an access means. -/
def load (store : Store α) (env : Env) (buf : String) (idx : List Expr) : Except Failure α := do
  let (v, coordinates) ← env.address buf idx
  match (store[v.tensor]?).bind (·.get? coordinates) with
  | some a => return a
  | none => failWith (.outside v.name coordinates)

/-- The number of the tensor that an access means, and the offset in it. -/
def locate (store : Store α) (env : Env) (buf : String) (idx : List Expr) :
    Except Failure (Nat × Nat) := do
  let (v, coordinates) ← env.address buf idx
  match (store[v.tensor]?).bind (·.offset? coordinates) with
  | some offset => return (v.tensor, offset)
  | none => failWith (.outside v.name coordinates)

/-- Change one element. -/
def modifyAt [Element α] (store : Store α) (place : Nat × Nat) (f : α → α) : Store α :=
  store.modify place.1 (·.modify place.2 f)

variable [Element α]

/-- The value of a data expression. -/
def data (store : Store α) (env : Env) : Expr → Except Failure α
  | .var v => do return Element.ofWord (← env.index (.var v))
  | .int n => .ok (Element.ofWord n)
  | .float x => .ok (Element.ofFloat x)
  | .read b idx => store.load env b idx
  | .binary op l r => do
    let x ← store.data env l
    let y ← store.data env r
    match op with
    | .add => return Element.add x y
    | .sub => return Element.sub x y
    | .mul => return Element.mul x y
    | .div => return Element.div x y
    | .mod => return Element.mod x y
    | _ => failWith (.notValue (.binary op l r))
  | .neg e => do return Element.neg (← store.data env e)

end Store

/-- A computation on the store, which keeps its changes when it fails. -/
abbrev Exec (α β : Type) := ExceptT Failure (StateM (Store α)) β

namespace Exec

variable {α β : Type}

/-- A computation that leaves the store as it is. -/
def eval (x : Except Failure β) : Exec α β := ExceptT.mk (pure x)

/-- Give back what the computation allocates. -/
def inScope (x : Exec α β) : Exec α β := ExceptT.mk do
  let mark := (← get).length
  let result ← x.run
  modify (·.take mark)
  return result

/-- Run `f k` for `n` numbers from `k` on, up to the first failure. -/
def countUp (f : Word → Exec α Unit) : (n k : Nat) → Exec α Unit
  | 0, _ => pure ()
  | n + 1, k => do
    f (Int64.ofNat k)
    countUp f n (k + 1)

end Exec

/-- Bind the parameters of a template to the windows of a call, the last one first. -/
def Env.enter (env : Env) : (inner : Env) → List (Param × Window) → Except Failure Env
  | inner, [] => .ok inner
  | inner, (p, w) :: rest => do
    let v ← env.window w
    env.enter (inner.bind p.name (.buffer v)) rest

/-- The template of a call and the environment of its body. -/
def Catalog.enter (c : Catalog) (env : Env) (name : String) (args : List Window) :
    Except Failure (Env × Block) :=
  match c.find? name with
  | none => failWith (.unknownTemplate name)
  | some t =>
    if t.params.length ≠ args.length then failWith (.argCount name args.length)
    else do return (← env.enter [] (t.params.zip args), t.body)

open Exec

variable {α : Type} [Element α]

mutual

/-- Run a statement; `callee` runs the bodies of templates. The result is the environment for the
statements after it. -/
def Stmt.exec (c : Catalog) (callee : Env → Block → Exec α Unit) (env : Env) : Stmt → Exec α Env
  | .loop h body => do
    let n ← eval (env.index h.bound)
    countUp (fun k => inScope (Stmt.execAll c callee (env.bind h.var (.index k)) body))
      n.toInt.toNat 0
    return env
  | .guard e body => do
    if ← eval (env.condition e) then inScope (Stmt.execAll c callee env body)
    return env
  | .store u b idx rhs => do
    let value ← eval ((← get).data env rhs)
    let place ← eval ((← get).locate env b idx)
    match u with
    | .set => modify (·.modifyAt place fun _ => value)
    | .add => modify (·.modifyAt place fun old => Element.add old value)
    return env
  | .alloc d => do
    let shape ← eval (env.shape d)
    let t ← eval (noOverflow (Tensor.undefined? d.ty shape))
    let number := (← get).length
    modify (· ++ [t])
    return env.bind d.name (.buffer (.whole number d.name shape))
  | .call name args => do
    let (inner, body) ← eval (c.enter env name args)
    callee inner body
    return env

/-- Run statements in order. -/
def Stmt.execAll (c : Catalog) (callee : Env → Block → Exec α Unit) (env : Env) :
    List Stmt → Exec α Unit
  | [] => pure ()
  | s :: rest => do
    let env ← s.exec c callee env
    Stmt.execAll c callee env rest

end

/-- Run a block in which calls are nested at most `depth` deep. -/
def Block.exec (c : Catalog) : (depth : Nat) → Env → Block → Exec α Unit
  | 0, env, b => inScope (Stmt.execAll c (fun _ _ => throw .tooDeep) env b)
  | depth + 1, env, b => inScope (Stmt.execAll c (Block.exec c depth) env b)

end LoopNest
