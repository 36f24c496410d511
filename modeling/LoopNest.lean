import LoopNest.Affine
import LoopNest.CommandLine.Arguments
import LoopNest.CommandLine.Directory
import LoopNest.CommandLine.Run
import LoopNest.Decimal.Layout
import LoopNest.Decimal.Reading
import LoopNest.Dependence
import LoopNest.Element
import LoopNest.Eval.Env
import LoopNest.Eval.Error
import LoopNest.Eval.Exec
import LoopNest.Eval.Run
import LoopNest.Json.Kernel
import LoopNest.Json.Reader
import LoopNest.Kernel.Parser
import LoopNest.Kernel.Printer
import LoopNest.Kernel.Same
import LoopNest.Kernel.Tree
import LoopNest.KernelFile
import LoopNest.Main
import LoopNest.Proofs.Bind
import LoopNest.Proofs.Enlarge
import LoopNest.Proofs.Fission
import LoopNest.Proofs.Hoist
import LoopNest.Proofs.Interchange
import LoopNest.Proofs.Matching.Call
import LoopNest.Proofs.Matching.Bounds
import LoopNest.Proofs.Matching.Progress
import LoopNest.Proofs.Simplify.Fixpoint
import LoopNest.Proofs.Simplify.Kernel
import LoopNest.Proofs.Sink
import LoopNest.Proofs.Splice
import LoopNest.Proofs.Split
import LoopNest.Proofs.Lift
import LoopNest.Proofs.SharedSlot
import LoopNest.Proofs.Written
import LoopNest.Random
import LoopNest.Report
import LoopNest.Schedule.Json
import LoopNest.Schedule.Replay
import LoopNest.Schedule.Script
import LoopNest.Schedule.Step
import LoopNest.Selector.Cursor
import LoopNest.Step.Fission
import LoopNest.Step.Instruction
import LoopNest.Step.LiftAlloc
import LoopNest.Step.Placement
import LoopNest.Step.Reorder
import LoopNest.Step.Simplify
import LoopNest.Step.Split
import LoopNest.Step.Stage
import LoopNest.Step.Unroll
import LoopNest.Template.Match
import LoopNest.Template.Platform
import LoopNest.Tensor
import LoopNest.Text.Span
import LoopNest.Text.Spelling
import LoopNest.Text.Width
import LoopNest.Validity
import LoopNest.Verify
import LoopNest.Word
import LoopNest.Proofs.AffineForm
import LoopNest.Proofs.Canonical
import LoopNest.Proofs.Binding
import LoopNest.Proofs.Invariant
import LoopNest.Proofs.Views
import LoopNest.Proofs.Frame
import LoopNest.Proofs.Selection
import LoopNest.Proofs.Contract.Extent
import LoopNest.Proofs.Safety
import LoopNest.Proofs.Contract.Calls
import LoopNest.Proofs.Contract.Motion
import LoopNest.Proofs.Contract.Parts
import LoopNest.Proofs.Contract.Simplify
import LoopNest.Proofs.Contract.Schedule
import LoopNest.Proofs.Double
import LoopNest.Proofs.Rounding
import LoopNest.Proofs.CallDepth
import LoopNest.Proofs.Returned
import LoopNest.Proofs.Representable
import LoopNest.Proofs.Windows
import LoopNest.Proofs.Verified
import LoopNest.Proofs.RowMajor
import LoopNest.Proofs.Touched
import LoopNest.Proofs.Overflow
import LoopNest.Proofs.Reading.Basic
import LoopNest.Proofs.Reading.Script
import LoopNest.Proofs.Reading.Spans
import LoopNest.Proofs.Reading.Literal
import LoopNest.Proofs.Reading.Operators
import LoopNest.Proofs.Reading.Expr
import LoopNest.Proofs.Reading.Stmt
import LoopNest.Proofs.Reading.Kernel
import LoopNest.Proofs.Reading.Spelled
import LoopNest.Proofs.Reading.Faithful
import LoopNest.Proofs.Reading.RoundTrip
import LoopNest.Proofs.Reading.Names
import LoopNest.Proofs.Reading.Schedule
import LoopNest.Proofs.Pinning
import LoopNest.Proofs.Stage
import LoopNest.Proofs.Unroll
import LoopNest.Proofs.Apart
