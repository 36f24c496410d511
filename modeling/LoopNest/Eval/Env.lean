import LoopNest.Eval.Error
import LoopNest.Kernel.Proc

/-!
# Environments

Names stand for index values and for views of tensors. Index expressions, guards, shapes and windows
are evaluated in an environment alone; they never look at the elements of a buffer.
-/

namespace LoopNest

/-- One dimension of a view: a fixed coordinate, or `extent` coordinates from `offset` on. -/
inductive ViewDim where
  | fixed (coordinate : Word)
  | free (offset extent : Word)

/-- A part of a tensor, which is given by its number; `name` is the name of the buffer that it was
made for. -/
structure View where
  tensor : Nat
  name : String
  dims : List ViewDim

namespace View

/-- The whole of a tensor. -/
def whole (tensor : Nat) (name : String) (shape : List Nat) : View :=
  ⟨tensor, name, shape.map fun n => .free 0 (Int64.ofNat n)⟩

def rank (v : View) : Nat :=
  (v.dims.filter fun
    | .free .. => true
    | .fixed _ => false).length

/-- The coordinates for the rest of an index; `outside` is the error if it is out of bounds. -/
def coordinatesFrom (outside : EvalError) : List ViewDim → List Word → Except Failure (List Word)
  | [], _ => .ok []
  | .fixed c :: dims, index => do return c :: (← coordinatesFrom outside dims index)
  | .free _ _ :: _, [] => failWith outside
  | .free offset extent :: dims, i :: index =>
    if i < 0 ∨ extent ≤ i then failWith outside
    else do
      let c ← noOverflow (Word.add? offset i)
      return c :: (← coordinatesFrom outside dims index)

/-- The coordinates in the tensor of an index into the view. -/
def coordinates (v : View) (index : List Word) : Except Failure (List Word) :=
  let outside := EvalError.outside v.name index
  if index.length ≠ v.rank then failWith outside else coordinatesFrom outside v.dims index

end View

/-- What a name stands for. -/
inductive Binding where
  | index (n : Word)
  | buffer (v : View)

/-- The names in scope, innermost first. -/
abbrev Env := List (String × Binding)

namespace Env

def bind (env : Env) (name : String) (b : Binding) : Env := (name, b) :: env

def view (env : Env) (name : String) : Except Failure View :=
  match env.lookup name with
  | some (.buffer v) => .ok v
  | some (.index _) => failWith (.notBuffer name)
  | none => failWith (.unknownName name)

/-- The value of an index expression. -/
def index (env : Env) : Expr → Except Failure Word
  | .var v =>
    match env.lookup v with
    | some (.index n) => .ok n
    | some (.buffer _) => failWith (.bufferAsIndex v)
    | none => failWith (.unknownName v)
  | .int n => .ok n
  | .binary op l r => do
    let x ← env.index l
    let y ← env.index r
    let divided : Option Word → Except Failure Word
      | some q => .ok q
      | none => failWith (.divisionByZero (.binary op l r))
    match op with
    | .add => noOverflow (Word.add? x y)
    | .sub => noOverflow (Word.sub? x y)
    | .mul => noOverflow (Word.mul? x y)
    | .div => divided (Word.div? x y)
    | .mod => divided (Word.mod? x y)
    | _ => failWith (.notIndex (.binary op l r))
  | .neg e => do noOverflow (Word.neg? (← env.index e))
  | .float x => failWith (.notIndex (.float x))
  | .read b idx => failWith (.notIndex (.read b idx))

/-- The values of index expressions, from left to right. -/
def indices (env : Env) : List Expr → Except Failure (List Word)
  | [] => .ok []
  | e :: es => do
    let n ← env.index e
    return n :: (← env.indices es)

/-- The view that an access uses, and the coordinates in its tensor. -/
def address (env : Env) (buf : String) (idx : List Expr) : Except Failure (View × List Word) := do
  let v ← env.view buf
  return (v, ← v.coordinates (← env.indices idx))

/-- The value of a guard. The right side of `and` is left out if the left side is false. -/
def condition (env : Env) : Expr → Except Failure Bool
  | .binary .and l r => do
    if ← env.condition l then env.condition r else return false
  | .binary op l r => do
    let x ← env.index l
    let y ← env.index r
    match op with
    | .lt => return x < y
    | .le => return x ≤ y
    | .gt => return y < x
    | .ge => return y ≤ x
    | .eq => return x = y
    | _ => failWith (.notCondition (.binary op l r))
  | e => failWith (.notCondition e)

/-- The extents of dimensions of the buffer `buf`. -/
def extents (env : Env) (buf : String) : List Expr → Except Failure (List Nat)
  | [] => .ok []
  | e :: es => do
    let n ← env.index e
    if n < 0 then failWith (.negativeExtent buf n)
    return n.toInt.toNat :: (← env.extents buf es)

/-- The shape of a declared buffer. -/
def shape (env : Env) (d : Decl) : Except Failure (List Nat) := env.extents d.name d.shape

/-- Narrow dimensions of a view by those of a window: a point fixes a coordinate, an interval leaves
a smaller range, and what was fixed before stays so. -/
def narrow (env : Env) (w : Window) :
    List ViewDim → List WindowDim → Except Failure (List ViewDim)
  | [], [] => .ok []
  | [], _ :: _ => failWith (.windowRank w.buf w.dims.length)
  | .fixed c :: dims, window => do return .fixed c :: (← env.narrow w dims window)
  | .free _ _ :: _, [] => failWith (.windowRank w.buf w.dims.length)
  | .free offset extent :: dims, .point e :: window => do
    let p ← env.index e
    if p < 0 ∨ extent ≤ p then failWith (.pointOutside w.buf p)
    let c ← noOverflow (Word.add? offset p)
    return .fixed c :: (← env.narrow w dims window)
  | .free offset extent :: dims, .interval lo hi :: window => do
    let lo ← env.index lo
    let hi ← env.index hi
    if lo < 0 ∨ extent < hi ∨ hi < lo then failWith (.intervalOutside w.buf lo hi)
    let start ← noOverflow (Word.add? offset lo)
    let count ← noOverflow (Word.sub? hi lo)
    return .free start count :: (← env.narrow w dims window)

/-- The view that a window means. -/
def window (env : Env) (w : Window) : Except Failure View := do
  let base ← env.view w.buf
  return { base with dims := ← env.narrow w base.dims w.dims }

end Env

end LoopNest
