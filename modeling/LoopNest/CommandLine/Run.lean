import LoopNest.CommandLine.Arguments
import LoopNest.CommandLine.Directory
import LoopNest.KernelFile
import LoopNest.Report
import LoopNest.Schedule.Json
import LoopNest.Verify

/-!
# Running commands

A command is run on the contents of its files, and its result is what it prints.
-/

namespace LoopNest

/-- What a command leaves behind. -/
inductive Outcome where
  | exit (code : Nat) (stdout stderr : String)
  /-- An integer overflow, or a report that cannot be drawn. -/
  | crash

namespace Command

/-- How a command ends early: with a message, or without. -/
inductive Stop where
  | fail (message : String)
  | crash

/-- The contents of files, or why one cannot be read. -/
abbrev Files := String → Except ReadError String

def read (files : Files) (path : String) : Except Stop String :=
  match files path with
  | .ok source => .ok source
  | .error e => .error (.fail s!"error: cannot read {path}: {e.message}\n")

/-- Stop with a report on a text. -/
def stopWith {α : Type} (r : Report) (path source : String) : Except Stop α :=
  match r.render? path source with
  | some text => .error (.fail text)
  | none => .error .crash

def load (files : Files) (path : String) : Except Stop KernelFile := do
  let source ← read files path
  match KernelFile.parse source with
  | .ok f => return f
  | .error e => stopWith (.ofParseError e) path source

/-- Stop with an error of a kernel file. -/
def orKernelError {α : Type} (path : String) : Except KernelFileError α → Except Stop α
  | .ok a => .ok a
  | .error e => .error (.fail s!"error: {path}: {e.message}\n")

/-- The kernel, what a script makes of it, and the templates. -/
def scheduled (files : Files) (kernel script : String) (target : Target) :
    Except Stop (Proc × Replay × Catalog) := do
  let file ← load files kernel
  let c ← orKernelError kernel (file.catalog target.platform)
  let p ← orKernelError kernel (file.checkedKernel target.name c)
  let source ← read files script
  let s ← match Script.parse source with
    | .ok s => pure s
    | .error e => stopWith (.ofParseError e) script source
  let r := s.schedule.replay c p
  match r.failed with
  | none => return (p, r, c)
  | some f =>
    match f.error? with
    | some e => stopWith (.ofStep s f e) script source
    | none => throw .crash

/-- The JSON form of a replay. -/
def replayJson (reference : Proc) (r : Replay) : Json :=
  .obj [("reference", reference.toJson .float), ("scheduled", r.kernel.toJson .float),
    ("trace", .arr (r.trace.map fun t =>
      .obj [("step", t.step.toJson), ("kernel", t.kernel.toJson .float)]))]

/-- The text of a trace. -/
def traceText (trace : List TraceEntry) : String :=
  String.join (trace.zipIdx.map fun (t, i) =>
    s!"// step {i}: {t.step.text}\n" ++ t.kernel.text ++ "\n\n")

/-- The exit code and the text of a comparison. -/
def verdict (reference p : Proc) (r : Verify.Report) : Nat × String :=
  let rows := String.join (r.buffers.map fun b =>
    b.buf ++ ": max |diff| = " ++ Decimal.plain.render b.diff ++ "\n")
  if r.passed then (0, rows ++ s!"ok: `{p.name}` matches `{reference.name}`\n")
  else
    let worst := Decimal.plain.render r.worst
    (1, rows ++ s!"mismatch: `{p.name}` differs from `{reference.name}` by up to {worst}\n")

/-- The exit code and what is printed. -/
def result (files : Files) : Command → Except Stop (Nat × String)
  | print kernel name => do
    let file ← load files kernel
    match name with
    | some _ =>
      let p ← orKernelError kernel (file.kernel name)
      return (0, p.text ++ "\n")
    | none =>
      let all := (file.templates ++ file.kernels).map (·.text)
      return (0, "\n\n".intercalate all ++ "\n")
  | schedule kernel script target shown => do
    let (p, r, _) ← scheduled files kernel script target
    match shown with
    | .kernel => return (0, r.kernel.text ++ "\n")
    | .trace => return (0, traceText r.trace)
    | .json => return (0, (replayJson p r).pretty 0 ++ "\n")
  | verify kernel script target sizes seed tolerance => do
    let (p, r, c) ← scheduled files kernel script target
    let sizes := sizes.foldl (fun all (n, v) => putNamed n v all) []
    match p.verify r.kernel c ⟨sizes, seed, tolerance⟩ with
    | .ok report => return verdict p r.kernel report
    | .error (.run _ .overflow) | .error (.run _ .tooDeep) => throw .crash
    | .error e => throw (.fail s!"error: {e.message}\n")

/-- Run a command. -/
def run (files : Files) (cmd : Command) : Outcome :=
  match cmd.result files with
  | .ok (code, stdout) => .exit code stdout ""
  | .error (.fail message) => .exit 1 "" message
  | .error .crash => .crash

end Command

end LoopNest
