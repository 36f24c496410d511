import LoopNest.Schedule.Script

/-!
# Replaying schedules

A schedule is applied step by step. The first step that fails ends the replay, which still tells all
kernels that were built before it.
-/

namespace LoopNest

/-- A step and the kernel it built. -/
structure TraceEntry where
  step : Step
  kernel : Proc

/-- A step that was not applied, and why. -/
structure FailedStep where
  index : Nat
  step : Step
  failure : StepFailure

namespace FailedStep

/-- Why the step was refused; a step that did not end has no reason. -/
def error? (f : FailedStep) : Option StepError :=
  match f.failure with
  | .refused e => some e
  | .overflow | .endless => none

def display (f : FailedStep) : String :=
  let reason := (f.error?.map (·.message)).getD ""
  s!"step {f.index} `{f.step.text}` failed: {reason}"

end FailedStep

/-- How far a replay went. -/
structure Replay where
  trace : List TraceEntry
  /-- The kernel after the last step that was applied. -/
  kernel : Proc
  failed : Option FailedStep

namespace Schedule

/-- Replay steps, the first of which has the number `index`. -/
def replayFrom (c : Catalog) (index : Nat) (p : Proc) : Schedule → Replay
  | [] => ⟨[], p, none⟩
  | step :: rest =>
    match step.apply c p with
    | .error failure => ⟨[], p, some ⟨index, step, failure⟩⟩
    | .ok kernel =>
      let r := replayFrom c (index + 1) kernel rest
      { r with trace := ⟨step, kernel⟩ :: r.trace }

def replay (s : Schedule) (c : Catalog) (p : Proc) : Replay := replayFrom c 0 p s

end Schedule

end LoopNest
