import LoopNest.Kernel.Parser
import LoopNest.Validity

/-!
# Template catalogs

A template is a procedure with emission text. Its body says what the instruction does, over buffers
of fixed shape. A catalog holds templates under distinct names, in the order they were registered.
-/

namespace LoopNest

/-- Why a template is not taken into a catalog. -/
inductive RegisterError where
  | noInstr (template : String)
  | nameTaken (template : String)
  | sizeParam (template param : String)
  | symbolicShape (template param : String)
  | unusedParam (template param : String)
  | invalid (template : String) (problem : Problem)

namespace RegisterError

def kindName : RegisterError → String
  | nameTaken _ => "NameCollision"
  | _ => "TemplateMismatch"

def message : RegisterError → String
  | noInstr t => s!"`{t}` does not match: missing `@instr` emission string"
  | nameTaken t => s!"name `{t}` is already in use"
  | sizeParam t p => s!"`{t}` does not match: parameter `{p}` is not a buffer"
  | symbolicShape t p => s!"`{t}` does not match: parameter `{p}` has a symbolic shape"
  | unusedParam t p => s!"`{t}` does not match: parameter `{p}` is never accessed"
  | invalid t problem => s!"`{t}` does not match: {problem.display}"

end RegisterError

/-- Templates in the order of registration. -/
structure Catalog where
  templates : List Proc := []

namespace Catalog

def find? (c : Catalog) (name : String) : Option Proc := c.templates.find? (·.name = name)

/-- The names in ascending order. -/
def names (c : Catalog) : List String := sortedNames (c.templates.map (·.name))

def size (c : Catalog) : Nat := c.templates.length

/-- What is wrong with a parameter of a template. -/
def checkParam (t : Proc) : Param → Except RegisterError Unit
  | .size n => .error (.sizeParam t.name n)
  | .buffer d =>
    if d.shape.any (·.int?.isNone) then .error (.symbolicShape t.name d.name)
    else if !t.body.touches d.name then .error (.unusedParam t.name d.name)
    else .ok ()

/-- Add a template. It has emission text and a new name, takes only buffers of constant shape,
accesses all of them, and is well formed. -/
def register (c : Catalog) (t : Proc) : Except RegisterError Catalog := do
  if t.instr.isNone then throw (.noInstr t.name)
  if (c.find? t.name).isSome then throw (.nameTaken t.name)
  t.params.forM (checkParam t)
  match t.firstProblem? none with
  | some problem => throw (.invalid t.name problem)
  | none => return { c with templates := c.templates ++ [t] }

/-- Why templates could not be loaded. -/
inductive LoadError where
  | parse (error : ParseError)
  | register (error : RegisterError)

namespace LoadError

def kindName : LoadError → String
  | parse _ => "Parse"
  | register _ => "Register"

def message : LoadError → String
  | parse e => "template source does not parse: " ++ e.display
  | register e => "template rejected: " ++ e.message

end LoadError

/-- Register templates one after the other. The catalog is returned also when one is refused, with
those before it. -/
def registerAll (c : Catalog) : List Proc → Catalog × Option RegisterError
  | [] => (c, none)
  | t :: rest =>
    match c.register t with
    | .ok c => c.registerAll rest
    | .error e => (c, some e)

/-- Register all templates of a text. -/
def extend (c : Catalog) (source : String) : Catalog × Option LoadError :=
  match Proc.parseAll source with
  | .error e => (c, some (.parse e))
  | .ok templates =>
    let (c, failed) := c.registerAll templates
    (c, failed.map .register)

/-- The catalog of a text. -/
def load (source : String) : Except LoadError Catalog :=
  match extend {} source with
  | (c, none) => .ok c
  | (_, some e) => .error e

end Catalog

end LoopNest
