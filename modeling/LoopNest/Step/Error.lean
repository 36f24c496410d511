import LoopNest.Dependence
import LoopNest.Selector.Cursor
import LoopNest.Template.Match
import LoopNest.Validity

/-!
# Why a scheduling step fails

A step that is refused leaves the kernel as it was. Every refusal has a kind, which is a stable code,
and a message.
-/

namespace LoopNest

/-- Why a step refuses to change a kernel. -/
inductive StepError where
  | select (error : SelectError)
  | badSelector (selector reason : String)
  | hazard (hazard : Hazard)
  | invalid (problem : Problem)
  | invalidPlacement (problem : Problem)
  | nameTaken (name : String)
  | unknownTemplate (name : String)
  | mismatch (template : String) (reason : Mismatch)
  | invalidCall (template : String) (problem : Problem)
  | factor (factor : Word)
  | notDivisible (bound : Expr) (factor : Word)
  | shapeVaries (buf : String)
  | extentVaries (var : String)
  | hiddenAlloc (buf : String)
  | liftDepth (buf : String) (scopes wanted : Nat)
  | fissionDepth (selector : String) (scopes wanted : Nat)
  | noStatement (path : Path)
  | notOnlyStatement (inner outer : String)
  | alreadySequential (var : String)
  | undeclared (buf : String)
  | indexExpression (selector : String)
  | notDataValue (e : Expr)
  | paramPlacement (buf : String)
  | unsupported (mem : Space) (ty : Scalar) (buf : String)
  | notRegister (buf : String) (mem : Space)
  | noDimension (buf : String) (rank dim : Nat)
  | partOutside (index : Word) (buf : String)
  | variableLoop (selector : String)
  | variableExtent (buf : String) (dim : Nat)
  | variableIndex (index : Expr) (buf : String)
  | variableWindow (dim : Nat) (buf : String)

namespace StepError

/-- The kinds of refusal. -/
inductive Kind where
  | notFound
  | ambiguous
  | invalidSelector
  | shapeMismatch
  | aliasViolation
  | dependencyViolation
  | invalidMemorySpace
  | invalidState
  | templateMismatch
  | notConstantBound
  | nameCollision
  | unknownTemplate
deriving DecidableEq

def Kind.name : Kind → String
  | notFound => "NotFound"
  | ambiguous => "Ambiguous"
  | invalidSelector => "InvalidSelector"
  | shapeMismatch => "ShapeMismatch"
  | aliasViolation => "AliasViolation"
  | dependencyViolation => "DependencyViolation"
  | invalidMemorySpace => "InvalidMemorySpace"
  | invalidState => "InvalidState"
  | templateMismatch => "TemplateMismatch"
  | notConstantBound => "NotConstantBound"
  | nameCollision => "NameCollision"
  | unknownTemplate => "UnknownTemplate"

/-- The kind under which a broken rule is reported. -/
def Kind.ofViolation : Violation.Kind → Kind
  | .scope => aliasViolation
  | .rank | .type => shapeMismatch
  | .memory => invalidMemorySpace
  | .template => templateMismatch

def kind : StepError → Kind
  | select (.notFound _) => .notFound
  | select (.ambiguous ..) => .ambiguous
  | badSelector .. => .invalidSelector
  | hazard _ => .dependencyViolation
  | invalid p => .ofViolation p.violation.kind
  | hiddenAlloc _ => .aliasViolation
  | nameTaken _ => .nameCollision
  | unknownTemplate _ => .unknownTemplate
  | mismatch .. | invalidCall .. => .templateMismatch
  | factor _ | notDivisible .. | shapeVaries _ | extentVaries _ | indexExpression _
  | notDataValue _ | noDimension .. | partOutside .. => .shapeMismatch
  | liftDepth .. | fissionDepth .. | noStatement _ | notOnlyStatement .. | alreadySequential _
  | undeclared _ => .invalidState
  | invalidPlacement _ | paramPlacement _ | unsupported .. | notRegister .. => .invalidMemorySpace
  | variableLoop _ | variableExtent .. | variableIndex .. | variableWindow .. => .notConstantBound

/-- What the message of the kind is about. -/
def reason : StepError → String
  | select e => e.message
  | badSelector s reason => s!"malformed selector `{s}`: {reason}"
  | hazard h => h.message
  | invalid p | invalidPlacement p => p.display
  | nameTaken n => s!"name `{n}` is already in use"
  | unknownTemplate n => s!"unknown template `{n}`"
  | mismatch _ m => m.message
  | invalidCall _ p => p.display
  | factor f => s!"split factor must be positive, got {f.text}"
  | notDivisible e f => s!"`{e.text}` is not provably divisible by {f.text}"
  | shapeVaries b => s!"shape of `{b}` depends on a lifted loop variable"
  | extentVaries v => s!"extent of `{v}` depends on a lifted loop variable"
  | hiddenAlloc b => s!"another allocation of `{b}` is visible where it would be lifted to"
  | liftDepth b scopes wanted => s!"`{b}` is inside {scopes} scope(s), cannot lift {wanted}"
  | fissionDepth s scopes wanted => s!"`{s}` is inside {scopes} scope(s), cannot fission {wanted}"
  | noStatement path => s!"no statement at {path.text}"
  | notOnlyStatement inner outer =>
    s!"`{inner}` is not the only statement in the body of `{outer}`"
  | alreadySequential v => s!"`for {v}` is already sequential"
  | undeclared b => s!"`{b}` is not declared"
  | indexExpression s => s!"`{s}` is an index expression"
  | notDataValue e => s!"`{e.text}` is not a data value"
  | paramPlacement b => s!"`{b}` is a parameter; only allocations can be moved"
  | unsupported mem ty b => s!"{mem.name} cannot hold {ty.name} buffer `{b}`"
  | notRegister b mem => s!"`{b}` lives in {mem.name}; only register buffers can be unrolled"
  | noDimension b rank dim => s!"`{b}` has rank {rank}, no dimension {dim}"
  | partOutside k b => s!"index {k.text} is outside `{b}`"
  | variableLoop s => s
  | variableExtent b dim => s!"{b}[{dim}]"
  | variableIndex e b => s!"index `{e.text}` of `{b}`"
  | variableWindow dim b => s!"window over dimension {dim} of `{b}`"

/-- The template a mismatch is about; a call that became invalid has none. -/
def template : StepError → String
  | mismatch t _ | invalidCall t _ => t
  | _ => ""

def message (e : StepError) : String :=
  match e.kind with
  | .notFound | .ambiguous | .invalidSelector | .nameCollision | .unknownTemplate => e.reason
  | .shapeMismatch => "shape mismatch: " ++ e.reason
  | .aliasViolation => "alias violation: " ++ e.reason
  | .dependencyViolation => "dependency violation: " ++ e.reason
  | .invalidMemorySpace => "invalid memory space: " ++ e.reason
  | .invalidState => "invalid state: " ++ e.reason
  | .templateMismatch => "`" ++ e.template ++ "` does not match: " ++ e.reason
  | .notConstantBound => "`" ++ e.reason ++ "` needs a constant bound"

end StepError

/-- How a step can end without a kernel: refused, or with a bound that is no word, or never. -/
inductive StepFailure where
  | refused (error : StepError)
  | overflow
  | endless

/-- A refusal is a failure. -/
def refusable {α : Type} : Except StepError α → Except StepFailure α
  | .ok a => .ok a
  | .error e => .error (.refused e)

end LoopNest
