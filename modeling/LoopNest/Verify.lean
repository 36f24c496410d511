import LoopNest.Eval.Run
import LoopNest.Kernel.Tree
import LoopNest.Random

/-!
# Comparing kernels

Two kernels with the same parameters are run on the same random inputs, and every buffer is compared
afterwards.
-/

namespace LoopNest

/-- Why two kernels could not be compared. -/
inductive VerifyError where
  | signature (wanted found : Proc)
  | run (kernel : String) (failure : Failure)

/-- How far the contents of a buffer are apart. -/
structure BufferDiff where
  buf : String
  diff : Float

namespace Verify

/-- The sizes to run with, the seed of the inputs, and the largest difference that is accepted. -/
structure Options where
  sizes : List (String × Word)
  seed : UInt64
  tolerance : Float

structure Report where
  buffers : List BufferDiff
  tolerance : Float

/-- The largest difference of all buffers. -/
def Report.worst (r : Report) : Float := r.buffers.foldl (fun x b => Tensor.larger x b.diff) 0

def Report.passed (r : Report) : Bool := r.buffers.all fun b => b.diff ≤ r.tolerance

end Verify

/-- The parameters of a kernel, spelled out. -/
def Proc.signature (p : Proc) : String := "(" ++ ", ".intercalate (p.params.map (·.tree)) ++ ")"

/-- The message of an error; a run that ends without an error of its own has none. -/
def VerifyError.message : VerifyError → String
  | signature wanted found =>
    "kernels have different signatures: expected " ++ wanted.signature ++ ", found " ++
      found.signature
  | run kernel failure =>
    let reason := match failure with
      | .error e => e.message
      | .overflow | .tooDeep => ""
    s!"running `{kernel}` failed: {reason}"

namespace Verify

/-- A random element of a buffer. -/
def randomElement (seed : UInt64) (d : Decl) (place : Nat) : Float :=
  let x := Random.word seed d.name place
  if d.ty.isFloat then Random.unit x else Random.small x

/-- Run a kernel and keep the arguments. -/
def outcome (p : Proc) (c : Catalog) (inputs : Args Float) : Except VerifyError (Args Float) :=
  match p.run c inputs with
  | (.ok (), args) => .ok args
  | (.error e, _) => .error (.run p.name e)

/-- The difference of a buffer after two runs, which is infinite if it cannot be compared. -/
def bufferDiff (wanted found : Args Float) (name : String) : BufferDiff where
  buf := name
  diff := (do (← wanted.buffers.lookup name).distance? (← found.buffers.lookup name)).getD
    Decimal.infinity

end Verify

open Verify in
/-- Compare a kernel with a reference on random inputs. -/
def Proc.verify (reference p : Proc) (c : Catalog) (o : Options) :
    Except VerifyError Verify.Report := do
  if reference.params.map (·.tree) ≠ p.params.map (·.tree) then throw (.signature reference p)
  let inputs ← match Args.forProc reference o.sizes (randomElement o.seed) with
    | .ok args => pure args
    | .error e => throw (.run reference.name e)
  let wanted ← outcome reference c inputs
  let found ← outcome p c inputs
  let names := sortedNames (wanted.buffers.map (·.1))
  return ⟨names.map (bufferDiff wanted found), o.tolerance⟩

end LoopNest
