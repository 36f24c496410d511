import LoopNest.Affine
import LoopNest.Kernel.Printer
import LoopNest.Scope

/-!
# Well-formed kernels

A kernel is well formed when every name stands for a declaration in scope, no declaration hides a
visible name, index positions hold integer expressions only, accesses have the declared rank, every
memory space admits the element types placed there, and every call agrees with the parameters of its
template. `Proc.problems` lists what is wrong, in program order.
-/

namespace LoopNest

/-- One way in which a kernel is not well formed. -/
inductive Violation where
  | duplicateParam (name : String)
  | hidingVar (name : String)
  | hidingAlloc (name : String)
  | unknownBuffer (name : String)
  | unknownVar (name : String)
  | accessRank (buf : String) (rank given : Nat)
  | windowRank (buf : String) (rank given : Nat)
  | bufferAsIndex (name : String)
  | floatAsIndex (e : Expr)
  | readAsIndex (buf : String)
  | notIndex (e : Expr)
  | notData (e : Expr)
  | notCondition (e : Expr)
  | registerParam (name : String) (mem : Space)
  | unsupported (mem : Space) (ty : Scalar) (name : String)
  | unknownTemplate (name : String)
  | argumentCount (template : String) (expected given : Nat)
  | sizeParam (name template : String)
  | argumentType (buf : String) (ty : Scalar) (formal : String) (expected : Scalar)
  | argumentSpace (buf : String) (mem : Space) (formal : String) (expected : Space)
  | argumentRank (buf : String) (rank : Nat) (formal : String) (expected : Nat)
  | argumentExtent (lo hi : Expr) (extent : Word) (formal : String) (expected : Word)
  | variableExtent (lo hi : Expr)

namespace Violation

/-- The rule that is broken. -/
inductive Kind where
  | scope
  | rank
  | type
  | memory
  | template
deriving DecidableEq

def Kind.name : Kind → String
  | scope => "Scope"
  | rank => "Rank"
  | type => "Type"
  | memory => "Memory"
  | template => "Template"

def kind : Violation → Kind
  | duplicateParam _ | hidingVar _ | hidingAlloc _ | unknownBuffer _ | unknownVar _ => .scope
  | accessRank .. | windowRank .. => .rank
  | bufferAsIndex _ | floatAsIndex _ | readAsIndex _ | notIndex _ | notData _ | notCondition _ =>
    .type
  | registerParam .. | unsupported .. => .memory
  | unknownTemplate _ | argumentCount .. | sizeParam .. | argumentType .. | argumentSpace ..
  | argumentRank .. | argumentExtent .. | variableExtent .. => .template

def message : Violation → String
  | duplicateParam n => s!"duplicate parameter `{n}`"
  | hidingVar v => s!"loop variable `{v}` shadows a visible name"
  | hidingAlloc n => s!"allocation `{n}` shadows a visible name"
  | unknownBuffer b => s!"unknown buffer `{b}`"
  | unknownVar v => s!"unknown variable `{v}`"
  | accessRank b rank given => s!"`{b}` has rank {rank} but is accessed with {given} indices"
  | windowRank b rank given => s!"window on `{b}` has {given} dimensions, buffer has {rank}"
  | bufferAsIndex b => s!"buffer `{b}` used as an index"
  | floatAsIndex e => s!"float `{e.text}` in index position"
  | readAsIndex b => s!"read of `{b}` in index position"
  | notIndex e => s!"`{e.text}` is not an index expression"
  | notData e => s!"`{e.text}` is not a data expression"
  | notCondition e => s!"`{e.text}` is not a condition"
  | registerParam n mem => s!"parameter `{n}` cannot live in {mem.name}"
  | unsupported mem ty n => s!"{mem.name} cannot hold {ty.name} buffer `{n}`"
  | unknownTemplate t => s!"unknown template `{t}`"
  | argumentCount t expected given => s!"`{t}` takes {expected} arguments, got {given}"
  | sizeParam n t => s!"parameter `{n}` of `{t}` is not a buffer"
  | argumentType b ty f expected => s!"`{b}` is {ty.name} but `{f}` expects {expected.name}"
  | argumentSpace b mem f expected =>
    s!"`{b}` lives in {mem.name} but `{f}` expects {expected.name}"
  | argumentRank b rank f expected => s!"window on `{b}` has rank {rank} but `{f}` has rank {expected}"
  | argumentExtent lo hi extent f expected =>
    s!"window `{lo.text}:{hi.text}` has extent {extent.text} but `{f}` expects {expected.text}"
  | variableExtent lo hi => s!"window `{lo.text}:{hi.text}` has no constant extent"

end Violation

/-- A violation and the statement it was found in; parameters are in no statement. -/
structure Problem where
  violation : Violation
  path : Option Path

namespace Problem

def display (p : Problem) : String :=
  match p.path with
  | some path => p.violation.message ++ " (at " ++ path.text ++ ")"
  | none => p.violation.message

end Problem

/-! ### Expressions -/

namespace Scope

/-- An index expression: integers, sizes and loop variables under arithmetic. -/
def checkIndex (sc : Scope) : Expr → List Violation
  | .var v =>
    if (sc.buffer? v).isSome then [.bufferAsIndex v]
    else if sc.isIndex v then [] else [.unknownVar v]
  | .int _ => []
  | .float x => [.floatAsIndex (.float x)]
  | .read b _ => [.readAsIndex b]
  | .binary op l r =>
    if op.isArithmetic then sc.checkIndex l ++ sc.checkIndex r else [.notIndex (.binary op l r)]
  | .neg e => sc.checkIndex e

/-- An element of a buffer. -/
def checkAccess (sc : Scope) (buf : String) (idx : List Expr) : List Violation :=
  (match sc.buffer? buf with
    | none => [.unknownBuffer buf]
    | some d => if d.rank = idx.length then [] else [.accessRank buf d.rank idx.length]) ++
  idx.flatMap sc.checkIndex

/-- A data expression: literals, sizes, loop variables and reads under arithmetic. -/
def checkData (sc : Scope) : Expr → List Violation
  | .var v => if sc.isIndex v then [] else [.unknownVar v]
  | .int _ | .float _ => []
  | .read b idx => sc.checkAccess b idx
  | .binary op l r =>
    if op.isArithmetic then sc.checkData l ++ sc.checkData r else [.notData (.binary op l r)]
  | .neg e => sc.checkData e

/-- A condition: comparisons of index expressions under conjunction. -/
def checkCondition (sc : Scope) : Expr → List Violation
  | .binary .and l r => sc.checkCondition l ++ sc.checkCondition r
  | .binary op l r =>
    if op.isComparison then sc.checkIndex l ++ sc.checkIndex r
    else [.notCondition (.binary op l r)]
  | e => [.notCondition e]

/-! ### Statements -/

def checkDecl (sc : Scope) (d : Decl) : List Violation :=
  (if d.mem.supports d.ty then [] else [.unsupported d.mem d.ty d.name]) ++
    d.shape.flatMap sc.checkIndex

def checkWindow (sc : Scope) (w : Window) : List Violation :=
  (match sc.buffer? w.buf with
    | none => [.unknownBuffer w.buf]
    | some d =>
      if d.rank = w.dims.length then [] else [.windowRank w.buf d.rank w.dims.length]) ++
  w.exprs.flatMap sc.checkIndex

/-- The extent of an interval, if it is constant. -/
def extent? (lo hi : Expr) : Option Word := do
  let h ← Affine.ofExpr? hi
  let l ← Affine.ofExpr? lo
  (← h.sub? l).constant?

/-- An interval passed where `extent` is declared. -/
def checkExtent (formal : String) (lo hi extent : Expr) : List Violation :=
  match extent? lo hi, extent.int? with
  | some given, some expected =>
    if given = expected then [] else [.argumentExtent lo hi given formal expected]
  | _, _ => [.variableExtent lo hi]

/-- A window passed for a parameter of `template`. -/
def checkArgument (sc : Scope) (template : String) (w : Window) : Param → List Violation
  | .size n => [.sizeParam n template]
  | .buffer f =>
    match sc.buffer? w.buf with
    | none => []
    | some d =>
      (if d.ty = f.ty then [] else [.argumentType w.buf d.ty f.name f.ty]) ++
      (if d.mem = f.mem then [] else [.argumentSpace w.buf d.mem f.name f.mem]) ++
      if w.rank ≠ f.rank then [.argumentRank w.buf w.rank f.name f.rank]
      else (w.intervals.zip f.shape).flatMap fun ((lo, hi), e) => checkExtent f.name lo hi e

/-- How templates are looked up by name; `none` leaves calls unchecked. -/
abbrev Templates := Option (String → Option Proc)

def checkCall (sc : Scope) (templates : Templates) (name : String) (args : List Window) :
    List Violation :=
  args.flatMap sc.checkWindow ++
    match templates with
    | none => []
    | some find =>
      match find name with
      | none => [.unknownTemplate name]
      | some t =>
        if t.params.length ≠ args.length then
          [.argumentCount name t.params.length args.length]
        else (args.zip t.params).flatMap fun (w, p) => sc.checkArgument name w p

/-- What is wrong with this very statement. -/
def checkStmt (sc : Scope) (templates : Templates) : Stmt → List Violation
  | .loop h _ =>
    sc.checkIndex h.bound ++ (if sc.isVisible h.var then [.hidingVar h.var] else [])
  | .guard c _ => sc.checkCondition c
  | .store _ b idx rhs => sc.checkAccess b idx ++ sc.checkData rhs
  | .alloc d => (if sc.isVisible d.name then [.hidingAlloc d.name] else []) ++ sc.checkDecl d
  | .call t args => sc.checkCall templates t args

/-! ### Procedures -/

/-- What is wrong with parameters; only a template has buffers in registers. -/
def checkParams (isTemplate : Bool) : Scope → List Param → List Violation
  | _, [] => []
  | sc, p :: rest =>
    (if sc.isVisible p.name then [.duplicateParam p.name] else []) ++
    (match p with
      | .size _ => []
      | .buffer d =>
        (if d.mem.isRegister && !isTemplate then [.registerParam d.name d.mem] else []) ++
          sc.checkDecl d) ++
    checkParams isTemplate (sc.addParam p) rest

end Scope

namespace Proc

/-- Everything that is wrong with a procedure, in program order. -/
def problems (templates : Scope.Templates) (p : Proc) : List Problem :=
  (Scope.checkParams p.isTemplate {} p.params).map (⟨·, none⟩) ++
    p.scoped.flatMap fun s => (s.scope.checkStmt templates s.stmt).map (⟨·, some s.path⟩)

/-- The first problem, if there is any. -/
def firstProblem? (templates : Scope.Templates) (p : Proc) : Option Problem :=
  (p.problems templates).head?

end Proc

namespace Problem

/-- All problems as a text of several lines. -/
def displayAll (ps : List Problem) : String :=
  if ps.isEmpty then "validation passed"
  else toString ps.length ++ " problem(s) found:\n" ++
    String.join (ps.map fun p => "  - " ++ p.display ++ "\n")

end Problem

end LoopNest
