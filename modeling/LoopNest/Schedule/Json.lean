import LoopNest.Json.Kernel
import LoopNest.Schedule.Step

/-!
# The JSON form of schedules

A step is an object whose field `op` is the word for it and whose other fields are its arguments, or
the list of the word and the arguments.
-/

namespace LoopNest

namespace Step

/-- The arguments by name. -/
def fields : Step → List (String × Json)
  | rename name => [("name", .str name)]
  | split loop factor outer inner perfect =>
    [("loop", .str loop), ("factor", .int factor.toInt), ("outer", .str outer),
      ("inner", .str inner), ("perfect", .bool perfect)]
  | reorder outer inner => [("outer", .str outer), ("inner", .str inner)]
  | fissionAfter stmt lifts => [("stmt", .str stmt), ("n_lifts", .nat lifts)]
  | liftAlloc alloc lifts keepDims =>
    [("alloc", .str alloc), ("n_lifts", .nat lifts), ("keep_dims", .bool keepDims)]
  | stageReduction name reduction => [("name", .str name), ("reduce", .str reduction)]
  | bindExpr name expr => [("name", .str name), ("expr", .str expr)]
  | setMemory buffer space => [("buffer", .str buffer), ("space", .str space.name)]
  | parToSeq loop | unroll loop => [("loop", .str loop)]
  | replace template selector => [("template", .str template), ("selector", .str selector)]
  | replaceAll template => [("template", .str template)]
  | unrollBuffer alloc dim => [("alloc", .str alloc), ("dim", .nat dim)]
  | simplify => []

def toJson (s : Step) : Json := .obj (("op", .str s.op) :: s.fields)

/-- The word for a step, and its arguments. -/
def opOfJson? : Json → Option (String × Json)
  | .obj fields => do return (← (← (Json.obj fields).field? "op").str?, .obj fields)
  | .arr (op :: args) => do return (← op.str?, .arr args)
  | _ => none

/-- A count of 64 bits. -/
def countOfJson? (j : Json) : Option Nat := j.nat?.filter (· < 2 ^ 64)

/-- A memory space: its name, alone or with an empty object or `null`. -/
def spaceOfJson? : Json → Option Space
  | .obj [(name, .obj [])] => Space.ofName? name
  | j => j.word?.bind Space.ofName?

/-- A flag that is off when it is missing. -/
def flagOfJson? : Option Json → Option Bool
  | none => some false
  | some j => j.bool?

def ofJson? (j : Json) : Option Step := do
  let (op, args) ← opOfJson? j
  let strs (keys : List String) : Option (List String) := do
    (← args.record? keys).mapM fun field => field.bind (·.str?)
  match op with
  | "rename" =>
    match ← strs ["name"] with
    | [name] => return rename name
    | _ => none
  | "split" =>
    match ← args.record? ["loop", "factor", "outer", "inner", "perfect"] with
    | [some loop, some factor, some outer, some inner, perfect] =>
      return split (← loop.str?) (← factor.word64?) (← outer.str?) (← inner.str?)
        (← flagOfJson? perfect)
    | _ => none
  | "reorder" =>
    match ← strs ["outer", "inner"] with
    | [outer, inner] => return reorder outer inner
    | _ => none
  | "fission_after" =>
    match ← args.record? ["stmt", "n_lifts"] with
    | [some stmt, some lifts] => return fissionAfter (← stmt.str?) (← countOfJson? lifts)
    | _ => none
  | "lift_alloc" =>
    match ← args.record? ["alloc", "n_lifts", "keep_dims"] with
    | [some alloc, some lifts, keepDims] =>
      return liftAlloc (← alloc.str?) (← countOfJson? lifts) (← flagOfJson? keepDims)
    | _ => none
  | "stage_assn" =>
    match ← strs ["name", "reduce"] with
    | [name, reduction] => return stageReduction name reduction
    | _ => none
  | "bind_expr" =>
    match ← strs ["name", "expr"] with
    | [name, expr] => return bindExpr name expr
    | _ => none
  | "set_memory" =>
    match ← args.record? ["buffer", "space"] with
    | [some buffer, some space] =>
      return setMemory (← buffer.str?) (← spaceOfJson? space)
    | _ => none
  | "par_to_seq" =>
    match ← strs ["loop"] with
    | [loop] => return parToSeq loop
    | _ => none
  | "replace" =>
    match ← strs ["template", "selector"] with
    | [template, selector] => return replace template selector
    | _ => none
  | "replace_all" =>
    match ← strs ["template"] with
    | [template] => return replaceAll template
    | _ => none
  | "unroll" =>
    match ← strs ["loop"] with
    | [loop] => return unroll loop
    | _ => none
  | "unroll_buffer" =>
    match ← args.record? ["alloc", "dim"] with
    | [some alloc, some dim] => return unrollBuffer (← alloc.str?) (← countOfJson? dim)
    | _ => none
  | "simplify" =>
    match ← args.record? [] with
    | [] => return simplify
    | _ => none
  | _ => none

end Step

namespace Schedule

def toJson (s : Schedule) : Json := .arr (s.map (·.toJson))

def ofJson? (j : Json) : Option Schedule := do (← j.items?).mapM Step.ofJson?

end Schedule

end LoopNest
