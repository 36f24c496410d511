import LoopNest.Kernel.Proc

/-!
# What a name stands for

A scope holds the names visible at a statement. `Proc.scoped` lists every statement of a procedure
with the scope in force there.
-/

namespace LoopNest

/-- The names visible at a statement; buffers and variables innermost first. -/
structure Scope where
  sizes : List String := []
  vars : List String := []
  buffers : List Decl := []

namespace Scope

/-- The declaration a buffer name stands for. -/
def buffer? (sc : Scope) (name : String) : Option Decl := sc.buffers.find? (·.name = name)

/-- Is the name a size or a loop variable? -/
def isIndex (sc : Scope) (name : String) : Bool := sc.sizes.contains name || sc.vars.contains name

def isVisible (sc : Scope) (name : String) : Bool :=
  sc.isIndex name || sc.buffers.any (·.name = name)

def addVar (sc : Scope) (v : String) : Scope := { sc with vars := v :: sc.vars }

def addBuffer (sc : Scope) (d : Decl) : Scope := { sc with buffers := d :: sc.buffers }

def addParam (sc : Scope) : Param → Scope
  | .size n => { sc with sizes := n :: sc.sizes }
  | .buffer d => sc.addBuffer d

/-- The scope of the statement that follows `s` in its block. -/
def after (sc : Scope) (s : Stmt) : Scope :=
  match s with
  | .alloc d => sc.addBuffer d
  | _ => sc

/-- The scope of the body of a statement. -/
def inside (sc : Scope) (s : Stmt) : Scope :=
  match s with
  | .loop h _ => sc.addVar h.var
  | _ => sc

end Scope

/-- A statement with its path and the scope in force there. -/
structure Scoped where
  path : Path
  scope : Scope
  stmt : Stmt

mutual

/-- The statement and those nested in it, in program order. -/
def Stmt.scoped (sc : Scope) (path : Path) : Stmt → List Scoped
  | .loop h body =>
    ⟨path, sc, .loop h body⟩ :: Stmt.scopedFrom (sc.addVar h.var) path 0 body
  | .guard c body => ⟨path, sc, .guard c body⟩ :: Stmt.scopedFrom sc path 0 body
  | .store u b idx rhs => [⟨path, sc, .store u b idx rhs⟩]
  | .alloc d => [⟨path, sc, .alloc d⟩]
  | .call t args => [⟨path, sc, .call t args⟩]

/-- The same for the statements of a block inside `path`, numbered from `i`. -/
def Stmt.scopedFrom (sc : Scope) (path : Path) (i : Nat) : List Stmt → List Scoped
  | [] => []
  | s :: rest => s.scoped sc (path.child i) ++ Stmt.scopedFrom (sc.after s) path (i + 1) rest

end

/-- The scope of a procedure's body. -/
def Proc.scope (p : Proc) : Scope := p.params.foldl Scope.addParam {}

/-- All statements of a procedure with their scopes, in program order. -/
def Proc.scoped (p : Proc) : List Scoped := Stmt.scopedFrom p.scope [] 0 p.body

end LoopNest
