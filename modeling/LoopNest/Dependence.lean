import LoopNest.Affine

/-!
# Dependences between accesses

Every access to a buffer in a region is recorded with its indices and the loops around it. For two
accesses to the same buffer, a loop variable is *pinned* when equal locations force equal values of
it: some dimension has the same affine form in both, and the coefficient of the variable exceeds all
that the other free variables of that form can add up to. Pinning is repeated, so `8 * jo + ji` pins
`jo` first and then `ji`.

Iterations of a loop may be reordered when every conflicting pair pins its variable: such accesses
always come from the same iteration.
-/

namespace LoopNest

/-- A loop around an access: its variable, and its number of iterations if that is constant. -/
abbrev Enclosing := String × Option Word

/-- One read or write of a buffer. -/
structure Access where
  buf : String
  /-- The index in each dimension; `none` for an interval, which may touch any element. -/
  dims : List (Option Expr)
  write : Bool
  /-- The loops between the region and the access, outermost first. -/
  loops : List Enclosing

namespace Access

/-- The reads in a data expression, also those in indices. -/
def reads (loops : List Enclosing) (e : Expr) : List Access :=
  e.collect fun
    | .read b idx => [⟨b, idx.map some, false, loops⟩]
    | _ => []

def ofWindow (loops : List Enclosing) (w : Window) : Access where
  buf := w.buf
  dims := w.dims.map fun
    | .point e => some e
    | .interval _ _ => none
  write := true
  loops := loops

mutual

/-- The accesses of a statement inside `loops`. An addition counts as a write, and so does every
window passed to a template. -/
def ofStmt (loops : List Enclosing) : Stmt → List Access
  | .loop h body => ofBlock (loops ++ [(h.var, h.bound.constant?)]) body
  | .guard _ body => ofBlock loops body
  | .store _ b idx rhs => reads loops rhs ++ [⟨b, idx.map some, true, loops⟩]
  | .alloc _ => []
  | .call _ args => args.map (ofWindow loops)

def ofBlock (loops : List Enclosing) : List Stmt → List Access
  | [] => []
  | s :: rest => ofStmt loops s ++ ofBlock loops rest

end

/-- May the two touch the same element, one of them writing? -/
def conflicts (a b : Access) : Bool := a.buf == b.buf && (a.write || b.write)

/-! ### Pinned variables -/

/-- How often a variable's loops run at most: `none` if no loop has it, and `some none` if some loop
of it has no constant count. -/
def tripCount? (loops : List Enclosing) (v : String) : Option (Option Word) :=
  match loops.filter (·.1 = v) with
  | [] => none
  | first :: rest =>
    some (rest.foldl (fun acc (_, n) => do return max (← acc) (← n)) first.2)

/-- The affine forms that both accesses have in the same dimension. -/
def sharedForms (a b : Access) : List Affine :=
  (a.dims.zip b.dims).filterMap fun (x, y) => do
    let f ← Affine.ofExpr? (← x)
    let g ← Affine.ofExpr? (← y)
    if f.same g then some f else none

/-- The most that the variables of a form other than `v`, and not pinned, can add to it. -/
def spread? (loops : List Enclosing) (form : Affine) (pinned : List String) (v : String) :
    Option Word :=
  form.coefficients.foldlM (fun sum (u, d) =>
    if u = v ∨ pinned.contains u then some sum
    else
      match tripCount? loops u with
      | none => some sum
      | some none => none
      | some (some n) => do
        let steps := if 1 ≤ n then n - 1 else 0
        Word.add? sum (← Word.mul? (← Word.abs? d) steps)) 0

/-- Does the form pin `v`, once the variables in `pinned` are? -/
def pins (loops : List Enclosing) (form : Affine) (pinned : List String) (v : String) (c : Word) :
    Bool :=
  (tripCount? loops v).isSome &&
    match spread? loops form pinned v, Word.abs? c with
    | some s, some c => s < c
    | _, _ => false

/-- Go through all forms once and add what they pin. -/
def pinRound (loops : List Enclosing) (forms : List Affine) (pinned : List String) : List String :=
  forms.foldl (fun pinned form =>
    form.coefficients.foldl (fun pinned (v, c) =>
      if !pinned.contains v && pins loops form pinned v c then v :: pinned else pinned) pinned)
    pinned

/-- `n` rounds. -/
def pinRounds (loops : List Enclosing) (forms : List Affine) : Nat → List String
  | 0 => []
  | n + 1 => pinRound loops forms (pinRounds loops forms n)

/-- Variables that have the same value whenever `a` and `b` touch the same element. `region` holds
the loops around both. A round that pins nothing is the last, so there are no more rounds than
variables. -/
def pinned (region : List Enclosing) (a b : Access) : List String :=
  let forms := sharedForms a b
  pinRounds (region ++ a.loops ++ b.loops) forms (forms.flatMap (·.terms)).length

end Access

/-! ### Legality -/

/-- Why loops or statements must stay as they are. -/
inductive Hazard where
  | boundVaries (inner outer : String)
  | acrossLoops (buf outer inner : String)
  | splitAlloc (buf : String)
  | acrossSplit (buf var : String)

namespace Hazard

def message : Hazard → String
  | boundVaries inner outer => s!"bound of `{inner}` depends on `{outer}`"
  | acrossLoops b outer inner =>
    s!"accesses to `{b}` may carry a dependence across `{outer}` and `{inner}`"
  | splitAlloc b => s!"`{b}` is allocated before the split point and used after it"
  | acrossSplit b v =>
    s!"accesses to `{b}` on both sides of the split may depend across iterations of `{v}`"

end Hazard

/-- All pairs of an element and itself or a later one, in order. -/
def pairs {α : Type} : List α → List (α × α)
  | [] => []
  | a :: rest => (a :: rest).map (a, ·) ++ pairs rest

def Header.enclosing (h : Header) : Enclosing := (h.var, h.bound.constant?)

/-- May a loop and the loop right inside it be swapped? -/
def checkReorder (outer inner : Header) (body : Block) : Except Hazard Unit :=
  if inner.bound.mentions outer.var then .error (.boundVaries inner.var outer.var)
  else
    let accesses := (Access.ofBlock [] body).filter fun a => !body.allocated.contains a.buf
    let region := [outer.enclosing, inner.enclosing]
    let carried (a b : Access) : Bool :=
      let pinned := Access.pinned region a b
      !pinned.contains outer.var && !pinned.contains inner.var
    match (pairs accesses).find? fun (a, b) => a.conflicts b && carried a b with
    | some (a, _) => .error (.acrossLoops a.buf outer.var inner.var)
    | none => .ok ()

/-- A cut of a block must not part an allocation from its uses. -/
def checkPrivate (before after : Block) : Except Hazard Unit :=
  match (before.filterMap (·.decl?)).find? fun d => Block.touches d.name after with
  | some d => .error (.splitAlloc d.name)
  | none => .ok ()

/-- May a loop be split into one that runs `before` and a second that runs `after`? Buffers that are
allocated in either half belong to one iteration and do not count. -/
def checkFission (loop : Header) (before after : Block) : Except Hazard Unit := do
  checkPrivate before after
  let locals := Block.allocated before ++ Block.allocated after
  let firsts := Access.ofBlock [] before
  let seconds := (Access.ofBlock [] after).filter fun a => !locals.contains a.buf
  let bad := seconds.find? fun a => firsts.any fun b =>
    a.conflicts b && !(Access.pinned [loop.enclosing] a b).contains loop.var
  match bad with
  | some a => .error (.acrossSplit a.buf loop.var)
  | none => .ok ()

end LoopNest
