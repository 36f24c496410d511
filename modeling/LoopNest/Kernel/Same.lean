import LoopNest.Kernel.Proc

/-!
# Equality of kernels

Two kernels are the same when they have the same structure and their literals are equal as numbers.
-/

namespace LoopNest

def Decl.same (a b : Decl) : Bool :=
  a.name == b.name && a.ty == b.ty && Expr.sameAll a.shape b.shape && a.mem == b.mem

def Header.same (a b : Header) : Bool := a.var == b.var && a.bound == b.bound && a.mode == b.mode

def WindowDim.same : WindowDim → WindowDim → Bool
  | .point a, .point b => a == b
  | .interval lo hi, .interval lo' hi' => lo == lo' && hi == hi'
  | _, _ => false

/-- Are two lists equal, element by element? -/
def allSame {α : Type} (same : α → α → Bool) (as bs : List α) : Bool :=
  as.length == bs.length && (as.zip bs).all fun (a, b) => same a b

def Window.same (a b : Window) : Bool := a.buf == b.buf && allSame WindowDim.same a.dims b.dims

mutual

def Stmt.same : Stmt → Stmt → Bool
  | .loop h body, .loop h' body' => h.same h' && Stmt.sameAll body body'
  | .guard c body, .guard c' body' => c == c' && Stmt.sameAll body body'
  | .store u b idx rhs, .store u' b' idx' rhs' =>
    u == u' && b == b' && Expr.sameAll idx idx' && rhs == rhs'
  | .alloc d, .alloc d' => d.same d'
  | .call t args, .call t' args' => t == t' && allSame Window.same args args'
  | _, _ => false

def Stmt.sameAll : List Stmt → List Stmt → Bool
  | [], [] => true
  | a :: as, b :: bs => a.same b && Stmt.sameAll as bs
  | _, _ => false

end

def Param.same : Param → Param → Bool
  | .size a, .size b => a == b
  | .buffer a, .buffer b => a.same b
  | _, _ => false

def Proc.same (p q : Proc) : Bool :=
  p.name == q.name && allSame Param.same p.params q.params && Stmt.sameAll p.body q.body &&
    p.instr == q.instr

end LoopNest
