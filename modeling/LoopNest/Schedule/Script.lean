import LoopNest.Schedule.Step
import LoopNest.Text.Span

/-!
# Schedule scripts

A script has one step a line, written as a call:

```text
# blocking
split("j", 8, ["jo", "ji"], perfect = true)
lift_alloc("C_reg:_", n_lifts = 3)
set_memory("C_reg", AVX2)
replace_all(mm256_loadu_ps)
```

Arguments are positional or `name = value`. Strings take single or double quotes; names of templates
and memory spaces may be bare words. Blank lines and lines that start with `#` are left out.
-/

namespace LoopNest

open Text
open Text.Parser

/-! ### Writing -/

def Step.text (s : Step) : String :=
  let args := match s with
    | .rename name => [quote name]
    | .split loop factor outer inner perfect =>
      [quote loop, factor.text, "[" ++ quote outer ++ ", " ++ quote inner ++ "]",
        "perfect = " ++ toString perfect]
    | .reorder outer inner => [quote outer, quote inner]
    | .fissionAfter stmt lifts => [quote stmt, "n_lifts = " ++ toString lifts]
    | .liftAlloc alloc lifts keepDims =>
      [quote alloc, "n_lifts = " ++ toString lifts, "keep_dims = " ++ toString keepDims]
    | .stageReduction name reduction => [quote name, quote reduction]
    | .bindExpr name expr => [quote name, quote expr]
    | .setMemory buffer space => [quote buffer, space.name]
    | .parToSeq loop | .unroll loop => [quote loop]
    | .replace template selector => [template, quote selector]
    | .replaceAll template => [template]
    | .unrollBuffer alloc dim => [quote alloc, toString dim]
    | .simplify => []
  s.op ++ "(" ++ ", ".intercalate args ++ ")"

def Schedule.text (s : Schedule) : String := String.join (s.map fun step => step.text ++ "\n")

/-! ### Calls -/

namespace Script

/-- An argument as it is written. -/
inductive Value where
  | str (s : String)
  | int (n : Word)
  | bool (b : Bool)
  | word (w : String)
  | list (items : List Value)

def Value.noun : Value → String
  | str _ => "a string"
  | int _ => "an integer"
  | bool _ => "a boolean"
  | word _ => "a bare word"
  | list _ => "a list"

structure Call where
  op : String
  args : List (Option String × Value)

/-- A string in single quotes, without escapes. -/
def singleQuoted : Parser String := do
  text "'"
  let s ← takeWhile (· != '\'')
  text "'"
  return String.ofList s

/-- A decimal integer that is a word. -/
def integer : Parser Word := do
  let sign ← optional (text "-")
  let digits ← takeWhile1 Decimal.isDigit
  let n : Int := Decimal.ofDigits digits
  ofOption (Word.ofInt? (if sign.isSome then -n else n))

/-- The value that a bare word stands for. -/
def Value.ofWord (w : String) : Value :=
  if w = "true" || w = "True" then .bool true
  else if w = "false" || w = "False" then .bool false
  else .word w

/-- Any number of items with commas, between two marks. -/
def items {α : Type} (left : String) (p : Parser α) (right : String) : Parser (List α) := do
  text left
  blanks
  let all ← separated (do
    let a ← p
    blanks
    return a) (do text ","; blanks)
  text right
  return all

/-- A value in which lists are nested less deep than `bound` is long. -/
def valueUpTo : (bound : List Char) → Parser Value
  | [] => fail
  | _ :: bound =>
    orElse (do return .str (← orElse quoted singleQuoted)) <|
    orElse (do return .int (← integer)) <|
    orElse (do return .list (← items "[" (valueUpTo bound) "]")) <|
    (do return .ofWord (← ident))

/-- A value. It is nested no deeper than the input is long. -/
def value : Parser Value := fun s => valueUpTo (' ' :: s) s

def arg : Parser (Option String × Value) := do
  let name ← optional do
    let name ← ident
    blanks
    text "="
    blanks
    return name
  return (name, ← value)

def call : Parser Call := do
  let op ← ident
  blanks
  return { op, args := ← items "(" arg ")" }

/-- A line that holds a call and maybe a comment. -/
def Call.parse (line : String) : Except ParseError Call :=
  match call line.toList with
  | .stop rest =>
    .error (.expected "a step like `split(\"i\", 8, [\"io\", \"ii\"])`" (offset line rest))
  | .ok c rest =>
    match trimLeft rest with
    | [] | '#' :: _ => .ok c
    | rest => .error (.trailing "step" (offset line rest))

/-! ### Steps -/

/-- The arguments of a call by parameter. -/
structure Bound where
  op : String
  values : List (String × Option Value)

namespace Bound

/-- Give the argument to a parameter that has none yet. -/
def put (b : Bound) (param : String) (v : Value) : Except String Bound :=
  if ((b.values.lookup param).bind id).isSome then
    .error s!"`{b.op}` got `{param}` twice"
  else
    .ok { b with values := b.values.map fun (p, old) => (p, if p = param then some v else old) }

/-- Bind arguments in order; positional ones go to the parameters in `free`. -/
def putAll (b : Bound) : (free : List String) → List (Option String × Value) → Except String Bound
  | _, [] => .ok b
  | [], (none, _) :: _ =>
    let count := b.values.length
    .error s!"`{b.op}` takes at most {count} arguments"
  | param :: free, (none, v) :: rest => do (← b.put param v).putAll free rest
  | free, (some param, v) :: rest =>
    if (b.values.lookup param).isSome then do (← b.put param v).putAll free rest
    else .error s!"`{b.op}` has no parameter `{param}`"

def ofCall (c : Call) (params : List String) : Except String Bound :=
  (Bound.mk c.op (params.map fun p => (p, none))).putAll params c.args

def get? (b : Bound) (param : String) : Option Value := (b.values.lookup param).bind id

def required (b : Bound) (param : String) : Except String Value :=
  match b.get? param with
  | some v => .ok v
  | none => .error s!"`{b.op}` is missing argument `{param}`"

def mismatch {α : Type} (b : Bound) (param wanted : String) (found : Value) : Except String α :=
  .error s!"`{b.op}` expects {wanted} for `{param}`, found {found.noun}"

def string (b : Bound) (param : String) : Except String String := do
  match ← b.required param with
  | .str s => return s
  | v => b.mismatch param "a string" v

/-- A string or a bare word. -/
def name (b : Bound) (param : String) : Except String String := do
  match ← b.required param with
  | .str s | .word s => return s
  | v => b.mismatch param "a name" v

def int (b : Bound) (param : String) : Except String Word := do
  match ← b.required param with
  | .int n => return n
  | v => b.mismatch param "an integer" v

def count (b : Bound) (param : String) (default : Nat) : Except String Nat :=
  match b.get? param with
  | none => .ok default
  | some (.int n) =>
    if 0 ≤ n then .ok n.toInt.toNat else .error s!"`{b.op}` needs a non-negative `{param}`"
  | some v => b.mismatch param "an integer" v

def flag (b : Bound) (param : String) : Except String Bool :=
  match b.get? param with
  | none => .ok false
  | some (.bool v) => .ok v
  | some v => b.mismatch param "true or false" v

def namePair (b : Bound) (param : String) : Except String (String × String) := do
  match ← b.required param with
  | .list [.str a, .str c] => return (a, c)
  | .list _ => throw s!"`{b.op}` expects two strings for `{param}`"
  | v => b.mismatch param "a list of two names" v

end Bound

/-- The step that a call means. -/
def Call.step (c : Call) : Except String Step :=
  match c.op with
  | "rename" => do
    let b ← Bound.ofCall c ["name"]
    return .rename (← b.name "name")
  | "split" => do
    let b ← Bound.ofCall c ["loop", "factor", "names", "perfect"]
    let (outer, inner) ← b.namePair "names"
    return .split (← b.string "loop") (← b.int "factor") outer inner (← b.flag "perfect")
  | "reorder" => do
    let b ← Bound.ofCall c ["outer", "inner"]
    return .reorder (← b.string "outer") (← b.string "inner")
  | "fission_after" => do
    let b ← Bound.ofCall c ["stmt", "n_lifts"]
    return .fissionAfter (← b.string "stmt") (← b.count "n_lifts" 1)
  | "lift_alloc" => do
    let b ← Bound.ofCall c ["alloc", "n_lifts", "keep_dims"]
    return .liftAlloc (← b.string "alloc") (← b.count "n_lifts" 1) (← b.flag "keep_dims")
  | "stage_assn" => do
    let b ← Bound.ofCall c ["name", "reduce"]
    return .stageReduction (← b.string "name") (← b.string "reduce")
  | "bind_expr" => do
    let b ← Bound.ofCall c ["name", "expr"]
    return .bindExpr (← b.string "name") (← b.string "expr")
  | "set_memory" => do
    let b ← Bound.ofCall c ["buffer", "space"]
    let space ← b.name "space"
    let buffer ← b.string "buffer"
    match Space.ofName? space with
    | some s => return .setMemory buffer s
    | none => throw s!"unknown memory space `{space}`"
  | "par_to_seq" => do
    let b ← Bound.ofCall c ["loop"]
    return .parToSeq (← b.string "loop")
  | "replace" => do
    let b ← Bound.ofCall c ["template", "selector"]
    return .replace (← b.name "template") (← b.string "selector")
  | "replace_all" => do
    let b ← Bound.ofCall c ["template"]
    return .replaceAll (← b.name "template")
  | "unroll" => do
    let b ← Bound.ofCall c ["loop"]
    return .unroll (← b.string "loop")
  | "unroll_buffer" => do
    let b ← Bound.ofCall c ["alloc", "dim"]
    return .unrollBuffer (← b.string "alloc") (← b.count "dim" 0)
  | "simplify" => do
    let _ ← Bound.ofCall c []
    return .simplify
  | other => .error s!"unknown step `{other}`"

/-- A line that starts at byte `start`: nothing, or a step and where it stands. -/
def parseLine (start : Nat) (line : List Char) : Except ParseError (Option (Step × Span)) :=
  let content := trimRight line
  match trimLeft content with
  | [] | '#' :: _ => .ok none
  | step =>
    let lead := start + (byteLength content - byteLength step)
    match Call.parse (String.ofList step) with
    | .error e => .error { e with offset := lead + e.offset }
    | .ok c =>
      match c.step with
      | .error message => .error ⟨message, lead⟩
      | .ok s => .ok (some (s, ⟨lead, start + byteLength content⟩))

/-- Lines, the first of which starts at byte `start`. -/
def parseLines : (start : Nat) → List (List Char) → Except ParseError (List (Step × Span))
  | _, [] => .ok []
  | start, line :: rest => do
    let step ← parseLine start line
    let steps ← parseLines (start + byteLength line) rest
    return step.toList ++ steps

end Script

/-- A schedule, and where each of its steps stands in the text. -/
structure Script where
  schedule : Schedule
  spans : List Span

def Script.parse (s : String) : Except ParseError Script := do
  let steps ← parseLines 0 (lines s.toList)
  return { schedule := steps.map (·.1), spans := steps.map (·.2) }

end LoopNest
