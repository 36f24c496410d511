import LoopNest.Kernel.Printer

/-!
# Why a kernel cannot be run
-/

namespace LoopNest

/-- What stops a run. -/
inductive EvalError where
  | missingSize (name : String)
  | missingBuffer (name : String)
  | invalidSize (name : String) (value : Word)
  | wrongTensor (buf : String) (ty : Scalar) (shape : List Nat) (found : Scalar × List Nat)
  | negativeExtent (buf : String) (extent : Word)
  | unknownName (name : String)
  | outside (buf : String) (index : List Word)
  | pointOutside (buf : String) (index : Word)
  | intervalOutside (buf : String) (lo hi : Word)
  | windowRank (buf : String) (dims : Nat)
  | divisionByZero (e : Expr)
  | unknownTemplate (name : String)
  | notBuffer (name : String)
  | bufferAsIndex (name : String)
  | notIndex (e : Expr)
  | notValue (e : Expr)
  | notCondition (e : Expr)
  | argCount (template : String) (count : Nat)

namespace EvalError

/-- The name of the kind of error. -/
def kindName : EvalError → String
  | missingSize _ => "MissingSize"
  | missingBuffer _ => "MissingBuffer"
  | invalidSize .. => "InvalidSize"
  | wrongTensor .. | negativeExtent .. => "ShapeMismatch"
  | unknownName _ => "UnknownName"
  | outside .. | pointOutside .. | intervalOutside .. | windowRank .. => "OutOfBounds"
  | divisionByZero _ => "DivisionByZero"
  | unknownTemplate _ => "UnknownTemplate"
  | notBuffer _ | bufferAsIndex _ | notIndex _ | notValue _ | notCondition _ | argCount .. =>
    "Unsupported"

/-- An element type and a shape, such as `f32[4, 8]`. -/
def tensorText (ty : Scalar) (shape : List Nat) : String :=
  ty.name ++ "[" ++ ", ".intercalate (shape.map toString) ++ "]"

def message : EvalError → String
  | missingSize n => s!"no value given for size `{n}`"
  | missingBuffer n => s!"no tensor given for buffer `{n}`"
  | invalidSize n v => s!"size `{n}` must be at least 1, got {v.text}"
  | wrongTensor b ty shape (ty', shape') =>
    "`" ++ b ++ "` expects " ++ tensorText ty shape ++ ", got " ++ tensorText ty' shape'
  | negativeExtent b n => s!"`{b}` expects a non-negative extent, got {n.text}"
  | unknownName n => s!"unknown name `{n}`"
  | outside b index =>
    let index := ", ".intercalate (index.map (·.text))
    s!"index [{index}] is out of bounds for `{b}`"
  | pointOutside b i => s!"index {i.text} is out of bounds for `{b}`"
  | intervalOutside b lo hi => s!"index {lo.text}:{hi.text} is out of bounds for `{b}`"
  | windowRank b n => s!"index window with {n} dimensions is out of bounds for `{b}`"
  | divisionByZero e => s!"division by zero in `{e.text}`"
  | unknownTemplate n => s!"unknown template `{n}`"
  | notBuffer n => s!"unsupported: `{n}` is not a buffer"
  | bufferAsIndex n => s!"unsupported: buffer `{n}` as an index"
  | notIndex e => s!"unsupported: `{e.text}` as an index"
  | notValue e => s!"unsupported: `{e.text}` as a value"
  | notCondition e => s!"unsupported: `{e.text}` as a condition"
  | argCount t n => s!"unsupported: `{t}` called with {n} arguments"

end EvalError

/-- How an evaluation can end without a value: with an error, with a number that is no word, or with
calls that are nested too deep. -/
inductive Failure where
  | error (e : EvalError)
  | overflow
  | tooDeep

/-- The value of checked arithmetic. -/
def noOverflow {β : Type} : Option β → Except Failure β
  | some b => .ok b
  | none => .error .overflow

/-- Fail with an error. -/
def failWith {β : Type} (e : EvalError) : Except Failure β := .error (.error e)

end LoopNest
