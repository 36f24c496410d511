import LoopNest.Kernel.Proc

/-!
# Affine forms

An affine form is a constant plus a sum of variables with coefficients. The terms keep the order in
which the variables first appear, so that `8 * jo + ji` becomes the same text again.

All arithmetic is checked: an operation whose result is no word gives `none`, and the expression
counts as not affine.
-/

namespace LoopNest

/-- `constant + Σ coeff * var`. -/
structure Affine where
  terms : List (String × Word)
  constant : Word

namespace Affine

def ofWord (n : Word) : Affine := ⟨[], n⟩

def ofVar (v : String) : Affine := ⟨[(v, 1)], 0⟩

/-- The value, if no variable matters. -/
def constant? (a : Affine) : Option Word :=
  if a.terms.all (·.2 == 0) then some a.constant else none

def coeff (v : String) (a : Affine) : Word := ((a.terms.find? (·.1 = v)).map (·.2)).getD 0

def mentions (v : String) (a : Affine) : Bool := a.coeff v != 0

/-- Variables with a coefficient, in order of appearance. -/
def vars (a : Affine) : List String := (a.terms.filter (·.2 != 0)).map (·.1)

/-- Insert a term by the name of its variable. -/
def insertTerm (t : String × Word) : List (String × Word) → List (String × Word)
  | [] => [t]
  | u :: rest => if t.1 < u.1 then t :: u :: rest else u :: insertTerm t rest

/-- The terms that matter, in the order of the variables' names. -/
def coefficients (a : Affine) : List (String × Word) :=
  (a.terms.filter (·.2 != 0)).foldr insertTerm []

/-- Equal up to the order of the terms. -/
def same (a b : Affine) : Bool := a.constant == b.constant && a.coefficients == b.coefficients

def normalize (a : Affine) : Affine := { a with terms := a.terms.filter (·.2 != 0) }

def scale? (k : Word) (a : Affine) : Option Affine := do
  let terms ← a.terms.mapM fun (v, c) => do return (v, ← Word.mul? c k)
  return normalize ⟨terms, ← Word.mul? a.constant k⟩

/-- Add `c` to the coefficient of `v`, in its place or at the end. -/
def addTerm? (v : String) (c : Word) : List (String × Word) → Option (List (String × Word))
  | [] => some [(v, c)]
  | (w, d) :: rest =>
    if w = v then do return (w, ← Word.add? d c) :: rest
    else do return (w, d) :: (← addTerm? v c rest)

def add? (a b : Affine) : Option Affine := do
  let terms ← b.terms.foldlM (fun acc (v, c) => addTerm? v c acc) a.terms
  return normalize ⟨terms, ← Word.add? a.constant b.constant⟩

def sub? (a b : Affine) : Option Affine := do a.add? (← b.scale? (-1))

def addConstant? (a : Affine) (k : Word) : Option Affine := do
  return { a with constant := ← Word.add? a.constant k }

/-- Drop the term of a variable. -/
def without (v : String) (a : Affine) : Affine := { a with terms := a.terms.filter (·.1 ≠ v) }

/-- The affine form of an expression. A product needs a constant factor; quotients and remainders
are taken of constants only. -/
def ofExpr? : Expr → Option Affine
  | .var v => some (ofVar v)
  | .int n => some (ofWord n)
  | .neg e => do (← ofExpr? e).scale? (-1)
  | .binary .add l r => do (← ofExpr? l).add? (← ofExpr? r)
  | .binary .sub l r => do (← ofExpr? l).sub? (← ofExpr? r)
  | .binary .mul l r => do
    let a ← ofExpr? l
    let b ← ofExpr? r
    match a.constant?, b.constant? with
    | some c, _ => b.scale? c
    | none, some c => a.scale? c
    | none, none => none
  | .binary .div l r => do
    return ofWord (← Word.div? (← (← ofExpr? l).constant?) (← (← ofExpr? r).constant?))
  | .binary .mod l r => do
    return ofWord (← Word.mod? (← (← ofExpr? l).constant?) (← (← ofExpr? r).constant?))
  | _ => none

/-- The first term of a sum. -/
def leadingTerm (v : String) (c : Word) : Expr :=
  if c = 1 then .var v else if c = -1 then .neg (.var v) else .mul (.int c) (.var v)

/-- A further term, added or subtracted. -/
def appendTerm (e : Expr) (v : String) (c : Word) : Expr :=
  match Word.abs? c with
  | none => .add e (.mul (.int c) (.var v))
  | some m =>
    let t := if m = 1 then .var v else .mul (.int m) (.var v)
    if c < 0 then .sub e t else .add e t

/-- The constant at the end, added or subtracted. -/
def appendConstant (e : Expr) (k : Word) : Expr :=
  if 0 < k then .add e (.int k)
  else if k < 0 then
    match Word.neg? k with
    | some m => .sub e (.int m)
    | none => .add e (.int k)
  else e

/-- The canonical expression of a form. -/
def toExpr (a : Affine) : Expr :=
  match a.terms.filter (·.2 != 0) with
  | [] => .int a.constant
  | (v, c) :: rest =>
    appendConstant (rest.foldl (fun e (v, c) => appendTerm e v c) (leadingTerm v c)) a.constant

/-- The least and the greatest value, given those of every variable. -/
def range? (varRange : String → Option (Word × Word)) (a : Affine) : Option (Word × Word) :=
  a.coefficients.foldlM (fun (lo, hi) (v, c) => do
    let (vlo, vhi) ← varRange v
    let (atLo, atHi) := if 0 < c then (vlo, vhi) else (vhi, vlo)
    return (← Word.add? lo (← Word.mul? c atLo), ← Word.add? hi (← Word.mul? c atHi)))
    (a.constant, a.constant)

end Affine

namespace Expr

/-- The value of an index expression that is constant. -/
def constant? (e : Expr) : Option Word := (Affine.ofExpr? e).bind (·.constant?)

/-- Are two index expressions equal as affine forms, or the same expression? -/
def sameIndex (a b : Expr) : Bool :=
  match Affine.ofExpr? a, Affine.ofExpr? b with
  | some x, some y => x.same y
  | _, _ => a == b

/-- Is the value at least 1 whenever all sizes are? -/
def isPositive (sizes : List String) (bound : Expr) : Bool :=
  match Affine.ofExpr? bound with
  | none => false
  | some a =>
    a.coefficients.all (fun (v, c) => sizes.contains v && 0 ≤ c) &&
      match a.range? fun _ => some (1, 1) with
      | some (lo, _) => 1 ≤ lo
      | none => false

end Expr

end LoopNest
