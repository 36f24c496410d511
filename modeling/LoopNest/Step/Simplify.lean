import LoopNest.Dependence

/-!
# Simplification

- index expressions are folded and brought into affine normal form;
- guards are decided from the ranges of the loop variables around them;
- loops that never run are dropped, and loops that run once are inlined;
- allocations that nobody reads are dropped with all writes to them, and so are loops and guards
  with an empty body.

Data expressions are left alone apart from their indices: no floating-point operation is moved or
folded. A round goes through the kernel once; rounds are repeated, since one may give another
something to do.
-/

namespace LoopNest

/-! ### Expressions -/

namespace Expr

/-- Fold constants and trivial identities under an operator. -/
def foldBinary (op : Op) (l r : Expr) : Expr :=
  let folded := match op, l.int?, r.int? with
    | .add, some x, some y => Word.add? x y
    | .sub, some x, some y => Word.sub? x y
    | .mul, some x, some y => Word.mul? x y
    | .div, some x, some y => Word.div? x y
    | .mod, some x, some y => Word.mod? x y
    | _, _, _ => none
  match folded with
  | some n => .int n
  | none =>
    let is (n : Word) (e : Expr) : Bool := e.int? == some n
    match op with
    | .add => if is 0 l then r else if is 0 r then l else .binary op l r
    | .sub => if is 0 r then l else .binary op l r
    | .mul =>
      if is 1 l then r else if is 1 r then l
      else if is 0 l || is 0 r then .int 0 else .binary op l r
    | .div => if is 1 r then l else .binary op l r
    | .mod => if is 1 r then .int 0 else .binary op l r
    | _ => .binary op l r

/-- Fold constants and trivial identities. -/
def fold : Expr → Expr
  | .binary op l r => foldBinary op l.fold r.fold
  | .neg e =>
    match e.fold with
    | .int n =>
      match Word.neg? n with
      | some m => .int m
      | none => .neg (.int n)
    | .neg inner => inner
    | other => .neg other
  | e => e

/-- The simplest form of an index expression. -/
def simplifyIndex (e : Expr) : Expr :=
  match Affine.ofExpr? e.fold with
  | some a => a.toExpr
  | none => e.fold

/-- Simplify the indices in a data expression. -/
def simplifyData : Expr → Expr
  | .read b idx => .read b (idx.map simplifyIndex)
  | .binary op l r => .binary op l.simplifyData r.simplifyData
  | .neg e => .neg e.simplifyData
  | e => e

def simplifyCondition : Expr → Expr
  | .binary .and l r => .binary .and l.simplifyCondition r.simplifyCondition
  | .binary op l r =>
    if op.isComparison then .binary op l.simplifyIndex r.simplifyIndex else .binary op l r
  | e => e

/-- Put 0 in the place of variables. -/
def zeroVars (vars : List String) : Expr → Expr :=
  rebuild (fun v => if vars.contains v then .int 0 else .var v) .read

end Expr

/-! ### Ranges -/

/-- What is known about variables: sizes are at least 1, and a loop variable is below the number of
iterations of its loop. Loops are innermost first. -/
structure Ranges where
  sizes : List String
  loops : List Enclosing

namespace Ranges

def enter (rs : Ranges) (loop : Enclosing) : Ranges := { rs with loops := loop :: rs.loops }

/-- The least and the greatest value of a variable, as far as they are known. -/
def ofVar (rs : Ranges) (v : String) : Option Word × Option Word :=
  match rs.loops.lookup v with
  | some n => (some 0, n.map (· - 1))
  | none => if rs.sizes.contains v then (some 1, none) else (none, none)

/-- The least and the greatest value of a form, as far as they are known. -/
def ofAffine (rs : Ranges) (a : Affine) : Option Word × Option Word :=
  a.coefficients.foldl (fun (lo, hi) (v, c) =>
    let (vlo, vhi) := rs.ofVar v
    let (addLo, addHi) := if 0 < c then (vlo, vhi) else (vhi, vlo)
    let extend (x y : Option Word) : Option Word := do
      let x ← x
      Word.add? (← Word.mul? c (← y)) x
    (extend lo addLo, extend hi addHi)) (some a.constant, some a.constant)

/-- The value of a comparison of a difference with 0, if its range decides it. -/
def decideComparison (op : Op) (lo hi : Option Word) : Option Bool :=
  let below (k : Word) : Bool := hi.any (· < k)
  let above (k : Word) : Bool := lo.any (k < ·)
  match op with
  | .lt => if below 0 then some true else if above (-1) then some false else none
  | .le => if below 1 then some true else if above 0 then some false else none
  | .gt => if above 0 then some true else if below 1 then some false else none
  | .ge => if above (-1) then some true else if below 0 then some false else none
  | .eq =>
    if lo == some 0 && hi == some 0 then some true
    else if above 0 || below 0 then some false else none
  | _ => none

/-- The value of a guard, if it is the same in all iterations. -/
def decide (rs : Ranges) : Expr → Option Bool
  | .binary .and l r =>
    match rs.decide l, rs.decide r with
    | some false, _ | _, some false => some false
    | some true, some true => some true
    | _, _ => none
  | .binary op l r => do
    let a ← Affine.ofExpr? l
    let b ← Affine.ofExpr? r
    let (lo, hi) := rs.ofAffine (← a.sub? b)
    decideComparison op lo hi
  | _ => none

end Ranges

/-! ### Dead allocations -/

namespace Stmt

/-- Does this very statement read the buffer, or pass it on? -/
def readsHere (b : String) (s : Stmt) : Bool :=
  (match s with
    | call _ args => args.any (·.buf == b)
    | _ => false) || s.exprs.any (·.reads b)

/-- Nothing in the place of a store into one of the buffers. -/
def withoutStore (gone : List String) : Stmt → List Stmt
  | store u b idx rhs => if gone.contains b then [] else [store u b idx rhs]
  | s => [s]

end Stmt

/-- Leave out allocations that no later statement of the block reads, with all writes to them.
`gone` holds those left out so far. -/
def dropDead (gone : List String) : List Stmt → List Stmt
  | [] => []
  | .alloc d :: rest =>
    let later := Stmt.flatMapAll (·.withoutStore gone) rest
    if (Block.nested later).any (·.readsHere d.name) then .alloc d :: dropDead gone rest
    else dropDead (d.name :: gone) rest
  | s :: rest => s.flatMap (·.withoutStore gone) ++ dropDead gone rest

/-! ### Statements -/

def Block.hasAlloc (b : Block) : Bool := b.any fun s => s.decl?.isSome

mutual

/-- One round on a statement. `zeros` are the variables of inlined loops, which are 0. -/
def Stmt.simplify (rs : Ranges) (zeros : List String) : Stmt → List Stmt
  | .loop h body =>
    let bound := (h.bound.zeroVars zeros).simplifyIndex
    if bound.int?.any (· ≤ 0) then []
    else if bound.int? == some 1 && !Block.hasAlloc body then
      Stmt.simplifyAll rs (h.var :: zeros) body
    else
      match dropDead [] (Stmt.simplifyAll (rs.enter (h.var, bound.int?)) zeros body) with
      | [] => []
      | body => [.loop { h with bound } body]
  | .guard c body =>
    let cond := (c.zeroVars zeros).simplifyCondition
    let value := rs.decide cond
    if value == some false then []
    else if value == some true && !Block.hasAlloc body then Stmt.simplifyAll rs zeros body
    else
      match dropDead [] (Stmt.simplifyAll rs zeros body) with
      | [] => []
      | body => [.guard cond body]
  | .store u b idx rhs =>
    [.store u b (idx.map fun e => (e.zeroVars zeros).simplifyIndex)
      (rhs.zeroVars zeros).simplifyData]
  | .alloc d =>
    [.alloc { d with shape := d.shape.map fun e => (e.zeroVars zeros).simplifyIndex }]
  | .call t args => [.call t (args.map (·.mapExprs fun e => (e.zeroVars zeros).simplifyIndex))]

def Stmt.simplifyAll (rs : Ranges) (zeros : List String) : List Stmt → List Stmt
  | [] => []
  | s :: rest => s.simplify rs zeros ++ Stmt.simplifyAll rs zeros rest

end

/-- One round on a block. -/
def Block.simplify (rs : Ranges) (b : Block) : Block := dropDead [] (Stmt.simplifyAll rs [] b)

namespace Proc

/-- `n` rounds. -/
def simplifyRounds (p : Proc) : Nat → Proc
  | 0 => p
  | n + 1 => simplifyRounds { p with body := p.body.simplify ⟨p.sizes, []⟩ } n

/-- Simplify for 32 rounds; once a round changes nothing, neither do the later ones. -/
def simplify (p : Proc) : Proc := p.simplifyRounds 32

end Proc

end LoopNest
