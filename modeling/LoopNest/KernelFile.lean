import LoopNest.Step.Error
import LoopNest.Template.Platform

/-!
# Kernel files

A file holds kernels and templates of its own; a template is a procedure with emission text.
-/

namespace LoopNest

structure KernelFile where
  kernels : List Proc
  templates : List Proc

/-- Why a kernel file gives no kernel to work on. -/
inductive KernelFileError where
  | catalog (error : Catalog.LoadError)
  | noKernel
  | severalKernels (names : List String)
  | unknownKernel (name : String)
  | invalid (kernel : String) (problem : Problem)

namespace KernelFileError

def kindName : KernelFileError → String
  | catalog _ => "Platform"
  | noKernel => "NoKernel"
  | severalKernels _ => "AmbiguousKernel"
  | unknownKernel _ => "UnknownKernel"
  | invalid .. => "Invalid"

def message : KernelFileError → String
  | catalog e => e.message
  | noKernel => "the file defines no kernel"
  | severalKernels names =>
    "the file defines several kernels (" ++ ", ".intercalate names ++ "); pick one with --name"
  | unknownKernel n => s!"no kernel named `{n}`"
  | invalid k problem =>
    "kernel `" ++ k ++ "` is malformed: " ++ (StepError.invalid problem).message

end KernelFileError

namespace KernelFile

def parse (source : String) : Except ParseError KernelFile := do
  let procs ← Proc.parseAll source
  return ⟨procs.filter (!·.isTemplate), procs.filter (·.isTemplate)⟩

/-- The kernel of that name, or the only kernel. -/
def kernel (f : KernelFile) : (name : Option String) → Except KernelFileError Proc
  | some name =>
    match f.kernels.find? (·.name = name) with
    | some p => .ok p
    | none => .error (.unknownKernel name)
  | none =>
    match f.kernels with
    | [] => .error .noKernel
    | [p] => .ok p
    | many => .error (.severalKernels (many.map (·.name)))

/-- The templates of the platform and those of the file. -/
def catalog (f : KernelFile) (platform : Platform) : Except KernelFileError Catalog :=
  match platform.catalog.registerAll f.templates with
  | (c, none) => .ok c
  | (_, some e) => .error (.catalog (.register e))

/-- The kernel of that name, or the only kernel, if it is well formed. -/
def checkedKernel (f : KernelFile) (name : Option String) (c : Catalog) :
    Except KernelFileError Proc := do
  let p ← f.kernel name
  match p.firstProblem? (some c.find?) with
  | none => return p
  | some problem => throw (.invalid p.name problem)

end KernelFile

end LoopNest
