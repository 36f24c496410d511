import LoopNest.Step.Fission
import LoopNest.Step.Instruction
import LoopNest.Step.LiftAlloc
import LoopNest.Step.Placement
import LoopNest.Step.Reorder
import LoopNest.Step.Simplify
import LoopNest.Step.Split
import LoopNest.Step.Stage
import LoopNest.Step.Unroll

/-!
# Scheduling steps

A step is one change of a kernel, with its arguments.
-/

namespace LoopNest

/-- One change of a kernel. Targets are selectors, kept as they were written. -/
inductive Step where
  | rename (name : String)
  | split (loop : String) (factor : Word) (outer inner : String) (perfect : Bool)
  | reorder (outer inner : String)
  | fissionAfter (stmt : String) (lifts : Nat)
  | liftAlloc (alloc : String) (lifts : Nat) (keepDims : Bool)
  | stageReduction (name reduction : String)
  | bindExpr (name expr : String)
  | setMemory (buffer : String) (space : Space)
  | parToSeq (loop : String)
  | replace (template selector : String)
  | replaceAll (template : String)
  | unroll (loop : String)
  | unrollBuffer (alloc : String) (dim : Nat)
  | simplify
deriving DecidableEq

/-- Steps, in the order in which they are applied. -/
abbrev Schedule : Type := List Step

namespace Step

/-- The word for the step. -/
def op : Step → String
  | rename _ => "rename"
  | split .. => "split"
  | reorder .. => "reorder"
  | fissionAfter .. => "fission_after"
  | liftAlloc .. => "lift_alloc"
  | stageReduction .. => "stage_assn"
  | bindExpr .. => "bind_expr"
  | setMemory .. => "set_memory"
  | parToSeq _ => "par_to_seq"
  | replace .. => "replace"
  | replaceAll _ => "replace_all"
  | unroll _ => "unroll"
  | unrollBuffer .. => "unroll_buffer"
  | simplify => "simplify"

/-- Apply a step. Only the steps that handle calls look at the catalog. -/
def apply (c : Catalog) (p : Proc) : Step → Except StepFailure Proc
  | rename name => .ok { p with name }
  | split loop factor outer inner perfect => p.split loop factor outer inner perfect
  | reorder outer inner => refusable (p.reorder outer inner)
  | fissionAfter stmt lifts => refusable (p.fissionAfter stmt lifts)
  | liftAlloc alloc lifts keepDims => refusable (p.liftAlloc alloc lifts keepDims)
  | stageReduction name reduction => refusable (p.stageReduction name reduction)
  | bindExpr name expr => refusable (p.bindExpr name expr)
  | setMemory buffer space => refusable (p.setMemory (some c.find?) buffer space)
  | parToSeq loop => refusable (p.parToSeq loop)
  | replace template selector => refusable (p.replace c template selector)
  | replaceAll template => p.replaceAll c template
  | unroll loop => refusable (p.unroll loop)
  | unrollBuffer alloc dim => refusable (p.unrollBuffer alloc dim)
  | simplify =>
    match p.simplify.firstProblem? (some c.find?) with
    | none => .ok p.simplify
    | some problem => .error (.refused (.invalid problem))

end Step

end LoopNest
