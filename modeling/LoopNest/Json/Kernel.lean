import LoopNest.Json.Basic
import LoopNest.Kernel.Proc

/-!
# The JSON form of kernels

A value with several forms is an object with one field, named for the form. A record is an object
whose unknown fields are ignored, or the list of its fields in order. The caller chooses how a float
literal is written.
-/

namespace LoopNest

namespace Json

/-- The name and the content of an object with a single field. -/
def tagged? : Json → Option (String × Json)
  | obj [(tag, content)] => some (tag, content)
  | _ => none

def tag (name : String) (content : Json) : Json := .obj [(name, content)]

/-- A form without content: its name, alone or with `null`. -/
def word? : Json → Option String
  | str s => some s
  | obj [(s, null)] => some s
  | _ => none

/-- The fields of a record, in the given order; those that are missing are `none`. -/
def record? (keys : List String) : Json → Option (List (Option Json))
  | obj fields => some (keys.map fun k => (obj fields).field? k)
  | arr items =>
    if items.length ≤ keys.length then
      some (items.map some ++ List.replicate (keys.length - items.length) none)
    else none
  | _ => none

def word64? (j : Json) : Option Word := j.int?.bind Word.ofInt?

/-- Any number, as a double. -/
def float? : Json → Option Float
  | int n => some (Float.ofInt n)
  | float x => some x
  | _ => none

mutual

/-- How deep arrays and objects are nested. -/
def depth : Json → Nat
  | arr items => depthItems items + 1
  | obj fields => depthFields fields + 1
  | _ => 0

def depthItems : List Json → Nat
  | [] => 0
  | j :: rest => max j.depth (depthItems rest)

def depthFields : List (String × Json) → Nat
  | [] => 0
  | (_, j) :: rest => max j.depth (depthFields rest)

end

end Json

/-! ### Writing -/

namespace Expr

mutual

def toJson (lit : Float → Json) : Expr → Json
  | var v => .tag "var" (.str v)
  | int n => .tag "int" (.int n.toInt)
  | float x => .tag "float" (lit x)
  | read b idx => .tag "read" (.arr [.str b, .arr (toJsonAll lit idx)])
  | binary op l r => .tag "binary" (.arr [.str op.name, l.toJson lit, r.toJson lit])
  | neg e => .tag "neg" (e.toJson lit)

def toJsonAll (lit : Float → Json) : List Expr → List Json
  | [] => []
  | e :: es => e.toJson lit :: toJsonAll lit es

end

end Expr

def Decl.toJson (lit : Float → Json) (d : Decl) : Json :=
  .obj [("name", .str d.name), ("ty", .str d.ty.name), ("shape", .arr (d.shape.map (·.toJson lit))),
    ("mem", .str d.mem.name)]

def WindowDim.toJson (lit : Float → Json) : WindowDim → Json
  | point e => .tag "point" (e.toJson lit)
  | interval lo hi => .tag "interval" (.arr [lo.toJson lit, hi.toJson lit])

def Window.toJson (lit : Float → Json) (w : Window) : Json :=
  .obj [("buf", .str w.buf), ("dims", .arr (w.dims.map (·.toJson lit)))]

namespace Stmt

mutual

def toJson (lit : Float → Json) : Stmt → Json
  | loop h body =>
    .tag "loop" (.obj [("var", .str h.var), ("bound", h.bound.toJson lit),
      ("mode", .str h.mode.name), ("body", .arr (toJsonAll lit body))])
  | guard c body => .tag "if" (.obj [("cond", c.toJson lit), ("body", .arr (toJsonAll lit body))])
  | store u b idx rhs =>
    .tag (match u with | .set => "assign" | .add => "reduce")
      (.obj [("buf", .str b), ("idx", .arr (idx.map (·.toJson lit))), ("rhs", rhs.toJson lit)])
  | alloc d => .tag "alloc" (d.toJson lit)
  | call t args =>
    .tag "call" (.obj [("template", .str t), ("args", .arr (args.map (·.toJson lit)))])

def toJsonAll (lit : Float → Json) : List Stmt → List Json
  | [] => []
  | s :: rest => s.toJson lit :: toJsonAll lit rest

end

end Stmt

def Param.toJson (lit : Float → Json) : Param → Json
  | size n => .tag "size" (.str n)
  | buffer d => .tag "buffer" (d.toJson lit)

def Proc.toJson (lit : Float → Json) (p : Proc) : Json :=
  .obj ([("name", .str p.name), ("params", .arr (p.params.map (·.toJson lit))),
    ("body", .arr (Stmt.toJsonAll lit p.body))] ++
    (p.instr.map fun s => ("instr", Json.str s)).toList)

/-! ### Reading -/

/-- An expression nested at most `n` deep. -/
def Expr.ofJsonUpTo : Nat → Json → Option Expr
  | 0, _ => none
  | n + 1, j => do
    match ← j.tagged? with
    | ("var", v) => return .var (← v.str?)
    | ("int", v) => return .int (← v.word64?)
    | ("float", v) => return .float (← v.float?)
    | ("read", .arr [b, idx]) => return .read (← b.str?) (← (← idx.items?).mapM (ofJsonUpTo n))
    | ("binary", .arr [op, l, r]) =>
      return .binary (← Op.ofName? (← op.word?)) (← ofJsonUpTo n l) (← ofJsonUpTo n r)
    | ("neg", e) => return .neg (← ofJsonUpTo n e)
    | _ => none

def Expr.ofJson? (j : Json) : Option Expr := Expr.ofJsonUpTo (j.depth + 1) j

def Expr.listOfJson? (j : Json) : Option (List Expr) := do (← j.items?).mapM Expr.ofJson?

def Decl.ofJson? (j : Json) : Option Decl := do
  match ← j.record? ["name", "ty", "shape", "mem"] with
  | [some name, some ty, some shape, some mem] =>
    return { name := ← name.str?, ty := ← Scalar.ofName? (← ty.word?),
             shape := ← Expr.listOfJson? shape, mem := ← Space.ofName? (← mem.word?) }
  | _ => none

def WindowDim.ofJson? (j : Json) : Option WindowDim := do
  match ← j.tagged? with
  | ("point", e) => return .point (← Expr.ofJson? e)
  | ("interval", .arr [lo, hi]) => return .interval (← Expr.ofJson? lo) (← Expr.ofJson? hi)
  | _ => none

def Window.ofJson? (j : Json) : Option Window := do
  match ← j.record? ["buf", "dims"] with
  | [some buf, some dims] =>
    return { buf := ← buf.str?, dims := ← (← dims.items?).mapM WindowDim.ofJson? }
  | _ => none

def Stmt.storeOfJson? (u : Update) (j : Json) : Option Stmt := do
  match ← j.record? ["buf", "idx", "rhs"] with
  | [some buf, some idx, some rhs] =>
    return .store u (← buf.str?) (← Expr.listOfJson? idx) (← Expr.ofJson? rhs)
  | _ => none

/-- A statement nested at most `n` deep. -/
def Stmt.ofJsonUpTo : Nat → Json → Option Stmt
  | 0, _ => none
  | n + 1, j => do
    match ← j.tagged? with
    | ("loop", v) =>
      match ← v.record? ["var", "bound", "mode", "body"] with
      | [some var, some bound, some mode, some body] =>
        return .loop { var := ← var.str?, bound := ← Expr.ofJson? bound,
                       mode := ← Mode.ofName? (← mode.word?) }
          (← (← body.items?).mapM (ofJsonUpTo n))
      | _ => none
    | ("if", v) =>
      match ← v.record? ["cond", "body"] with
      | [some cond, some body] =>
        return .guard (← Expr.ofJson? cond) (← (← body.items?).mapM (ofJsonUpTo n))
      | _ => none
    | ("assign", v) => Stmt.storeOfJson? .set v
    | ("reduce", v) => Stmt.storeOfJson? .add v
    | ("alloc", v) => return .alloc (← Decl.ofJson? v)
    | ("call", v) =>
      match ← v.record? ["template", "args"] with
      | [some template, some args] =>
        return .call (← template.str?) (← (← args.items?).mapM Window.ofJson?)
      | _ => none
    | _ => none

def Stmt.ofJson? (j : Json) : Option Stmt := Stmt.ofJsonUpTo (j.depth + 1) j

def Param.ofJson? (j : Json) : Option Param := do
  match ← j.tagged? with
  | ("size", v) => return .size (← v.str?)
  | ("buffer", v) => return .buffer (← Decl.ofJson? v)
  | _ => none

def Proc.ofJson? (j : Json) : Option Proc := do
  match ← j.record? ["name", "params", "body", "instr"] with
  | [some name, some params, some body, instr] =>
    let instr ← match instr with
      | none | some .null => some none
      | some v => v.str?.map some
    return { name := ← name.str?, params := ← (← params.items?).mapM Param.ofJson?,
             body := ← (← body.items?).mapM Stmt.ofJson?, instr }
  | _ => none

end LoopNest
