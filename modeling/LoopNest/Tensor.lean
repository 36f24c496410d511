import LoopNest.Element

/-!
# Tensors

The content of a buffer: its elements in row-major order. An index list selects an element when it
has one index for each dimension and all are within their extents (`offset?`).
-/

namespace LoopNest

/-- The content of one buffer. -/
structure Tensor (α : Type) where
  ty : Scalar
  shape : List Nat
  data : Array α

namespace Tensor

variable {α : Type}

/-- The product of the extents from the left. There is none if a product on the way needs more than
64 bits. -/
def product? (shape : List Nat) : Option Nat :=
  shape.foldlM (fun n extent => if n * extent < 2 ^ 64 then some (n * extent) else none) 1

/-- The number of elements. Each takes 8 bytes, and there is no room for 2 ^ 63 bytes. -/
def size? (shape : List Nat) : Option Nat := (product? shape).filter (8 * · < 2 ^ 63)

/-- The tensor whose elements are `f 0`, `f 1` and so on, rounded to its type. -/
def build? [Element α] (ty : Scalar) (shape : List Nat) (f : Nat → α) : Option (Tensor α) := do
  let n ← size? shape
  return ⟨ty, shape, Array.ofFn fun i : Fin n => Element.round ty (f i)⟩

/-- A tensor that was never written. -/
def undefined? [Element α] (ty : Scalar) (shape : List Nat) : Option (Tensor α) := do
  return ⟨ty, shape, Array.replicate (← size? shape) Element.undefined⟩

/-- The offset after `flat` rows of the dimensions so far. -/
def offsetFrom? (flat : Nat) : (shape : List Nat) → (index : List Word) → Option Nat
  | [], [] => some flat
  | extent :: shape, i :: index =>
    if 0 ≤ i.toInt ∧ i.toInt < extent then offsetFrom? (flat * extent + i.toInt.toNat) shape index
    else none
  | _, _ => none

/-- The row-major offset of an element. -/
def offset? (t : Tensor α) (index : List Word) : Option Nat := offsetFrom? 0 t.shape index

def get? (t : Tensor α) (index : List Word) : Option α := (t.offset? index).bind (t.data[·]?)

/-- Change the element at an offset, rounding to the type. -/
def modify [Element α] (t : Tensor α) (offset : Nat) (f : α → α) : Tensor α :=
  { t with data := t.data.modify offset fun old => Element.round t.ty (f old) }

def set? [Element α] (t : Tensor α) (index : List Word) (value : α) : Option (Tensor α) :=
  (t.offset? index).map fun o => t.modify o fun _ => value

/-- The larger of two numbers; what is no number does not count. -/
def larger (x y : Float) : Float := if y.isNaN || y ≤ x then x else y

/-- The largest distance between elements at the same place. Two that are no number count as
equal. -/
def distance? (a b : Tensor Float) : Option Float :=
  if a.shape = b.shape then
    some ((a.data.zip b.data).foldl (fun d (x, y) =>
      larger d (if x.isNaN && y.isNaN then 0 else (x - y).abs)) 0)
  else none

end Tensor

end LoopNest
