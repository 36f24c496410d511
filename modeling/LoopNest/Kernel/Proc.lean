import LoopNest.Kernel.Stmt

/-!
# Procedures

A procedure is a kernel, or a hardware template when it carries emission text.
-/

namespace LoopNest

/-- A parameter: an integer size, at least 1, or a buffer. -/
inductive Param where
  | size (name : String)
  | buffer (decl : Decl)

namespace Param

def name : Param → String
  | size n => n
  | buffer d => d.name

def decl? : Param → Option Decl
  | size _ => none
  | buffer d => some d

end Param

/-- A procedure; `instr` is the emission text of a template. -/
structure Proc where
  name : String
  params : List Param
  body : Block
  instr : Option String := none

/-! ### Sets of names, as lists in ascending order -/

/-- Add a name to an ascending list, unless it is there. -/
def insertName (n : String) : List String → List String
  | [] => [n]
  | m :: rest => if n = m then m :: rest else if n < m then n :: m :: rest else m :: insertName n rest

/-- The distinct names in ascending order. -/
def sortedNames (names : List String) : List String := names.foldr insertName []

/-- `base` if it is not taken, otherwise the first free one of `base_1`, `base_2`, and so on. -/
def freshName (taken : List String) (base : String) : String :=
  if taken.contains base then
    let numbered (i : Nat) : String := base ++ "_" ++ toString (i + 1)
    match (List.range (taken.length + 1)).find? fun i => !taken.contains (numbered i) with
    | some i => numbered i
    | none => base
  else base

namespace Proc

def isTemplate (p : Proc) : Bool := p.instr.isSome

def param? (p : Proc) (name : String) : Option Param := p.params.find? (·.name = name)

/-- The first parameter of that name, if it is a buffer. -/
def bufferParam? (p : Proc) (name : String) : Option Decl := (p.param? name).bind (·.decl?)

def sizes (p : Proc) : List String :=
  p.params.filterMap fun
    | .size n => some n
    | .buffer _ => none

def bufferParams (p : Proc) : List Decl := p.params.filterMap (·.decl?)

def stmt? (p : Proc) (path : Path) : Option Stmt := Block.get? path p.body

/-- The block that holds the statement at a path. -/
def container? (p : Proc) (path : Path) : Option Block :=
  match path.parent? with
  | none => some p.body
  | some parent => (p.stmt? parent).bind (·.body?)

/-- The enclosing statements of a path with their own paths, innermost first. -/
def ancestors (p : Proc) (path : Path) : List (Path × Stmt) :=
  (List.range (path.length - 1)).filterMap fun k =>
    let outer := path.take (path.length - 1 - k)
    (p.stmt? outer).map (outer, ·)

/-- Names of parameters, loop variables and allocations, with repetitions. -/
def boundNames (p : Proc) : List String :=
  p.params.map (·.name) ++ p.body.nested.filterMap (·.binds?)

/-- The expression in a slot of the statement at a path, followed down by `steps`. -/
def expr? (p : Proc) (path : Path) (slot : Nat) (steps : List Nat) : Option Expr := do
  Expr.get? steps (← (← p.stmt? path).exprs[slot]?)

/-- Replace that expression. -/
def setExpr? (p : Proc) (path : Path) (slot : Nat) (steps : List Nat) (new : Expr) :
    Option Proc := do
  let s ← p.stmt? path
  let e ← Expr.set? new steps (← s.exprs[slot]?)
  let body ← p.body.replace? path [s.withExprs (s.exprs.set slot e)]
  return { p with body }

/-- The declaration a buffer name stands for at a path: an allocation earlier in an enclosing block,
the last one winning, or else a parameter. -/
def visibleDecl? (p : Proc) (path : Path) (name : String) : Option Decl :=
  let rec go (found : Option Decl) : Path → Block → Option Decl
    | [], _ => found
    | i :: rest, b =>
      let here := ((b.take i).filterMap (·.decl?)).reverse.find? (·.name = name)
      let found := here.or found
      match rest with
      | [] => found
      | _ :: _ =>
        match b[i]? with
        | none => none
        | some s =>
          match s.body? with
          | none => none
          | some body => go found rest body
  go (p.bufferParam? name) path p.body

end Proc

end LoopNest
