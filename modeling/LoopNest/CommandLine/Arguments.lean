import LoopNest.Template.Platform

/-!
# Command-line arguments

```text
print KERNEL [--name NAME]
schedule KERNEL SCRIPT [--name NAME] [--platform PLATFORM] [--trace | --json]
verify KERNEL SCRIPT [--name NAME] [--platform PLATFORM] [--size NAME=VALUE]... [--seed N]
  [--tolerance X]
```

Options may stand anywhere after the command, as `--option value` or `--option=value`, and only
`--size` may be repeated. After `--` there are no more options.
-/

namespace LoopNest

/-- Which kernel of a file to work on, and which templates to use. -/
structure Target where
  name : Option String
  platform : Platform

/-- What a schedule is shown as. -/
inductive Shown where
  | kernel
  | trace
  | json

inductive Command where
  | print (kernel : String) (name : Option String)
  | schedule (kernel script : String) (target : Target) (shown : Shown)
  | verify (kernel script : String) (target : Target) (sizes : List (String × Word))
      (seed : UInt64) (tolerance : Float)

namespace Command

/-- The arguments after the command, sorted by kind. -/
structure Words where
  positional : List String
  options : List (String × String)
  flags : List String

/-- Does the argument start with a dash that makes it an option? -/
def isOption (arg : String) : Bool := arg.toList.head? == some '-' && arg != "-"

/-- The name of an option and the value after `=`, if there is one. -/
def splitOption (arg : String) : String × Option String :=
  let name := arg.toList.takeWhile (· != '=')
  match arg.toList.drop name.length with
  | [] => (arg, none)
  | _ :: value => (String.ofList name, some (String.ofList value))

/-- Sort arguments; `valued` are the options with a value, `flags` those without. -/
def words? (valued flags : List String) : List String → Option Words
  | [] => some ⟨[], [], []⟩
  | "--" :: rest => some ⟨rest, [], []⟩
  | arg :: rest =>
    if !isOption arg then
      (words? valued flags rest).map fun w => { w with positional := arg :: w.positional }
    else
      let (name, given) := splitOption arg
      if flags.contains name && given.isNone then
        (words? valued flags rest).map fun w => { w with flags := name :: w.flags }
      else if !valued.contains name then none
      else
        match given with
        | some value =>
          (words? valued flags rest).map fun w => { w with options := (name, value) :: w.options }
        | none =>
          match rest with
          | [] => none
          | value :: rest =>
            if isOption value then none
            else
              (words? valued flags rest).map fun w =>
                { w with options := (name, value) :: w.options }

/-- The values of an option. -/
def Words.values (w : Words) (name : String) : List String :=
  (w.options.filter (·.1 = name)).map (·.2)

/-- The value of an option that may be given once, or else `default`. -/
def Words.single? {α : Type} (w : Words) (name : String) (read : String → Option α) (default : α) :
    Option α :=
  match w.values name with
  | [] => some default
  | [value] => read value
  | _ => none

/-- A flag that may be given once. -/
def Words.flag? (w : Words) (name : String) : Option Bool :=
  match w.flags.filter (· = name) with
  | [] => some false
  | [_] => some true
  | _ => none

/-- The paths, which are not empty, if there are `n` of them. -/
def Words.paths? (w : Words) (n : Nat) : Option (List String) :=
  if w.positional.length = n && w.positional.all (· != "") then some w.positional else none

/-- A size: a name and a word with blanks around them, and `=` between. -/
def size? (arg : String) : Option (String × Word) :=
  match splitOption arg with
  | (_, none) => none
  | (name, some value) => do
    let n ← Word.ofInt? (← Decimal.integer? (Text.trim value.toList))
    return (String.ofList (Text.trim name.toList), n)

def Words.target? (w : Words) : Option Target := do
  return { name := ← w.single? "--name" (some ∘ some) none,
           platform := ← w.single? "--platform" Platform.ofName? .avx2 }

/-- The command that arguments mean. -/
def parse? : List String → Option Command
  | "print" :: args => do
    let w ← words? ["--name"] [] args
    match ← w.paths? 1 with
    | [kernel] => return print kernel (← w.single? "--name" (some ∘ some) none)
    | _ => none
  | "schedule" :: args => do
    let w ← words? ["--name", "--platform"] ["--trace", "--json"] args
    match ← w.paths? 2 with
    | [kernel, script] =>
      let target ← w.target?
      match ← w.flag? "--trace", ← w.flag? "--json" with
      | false, false => return schedule kernel script target .kernel
      | true, false => return schedule kernel script target .trace
      | false, true => return schedule kernel script target .json
      | true, true => none
    | _ => none
  | "verify" :: args => do
    let w ← words? ["--name", "--platform", "--size", "--seed", "--tolerance"] [] args
    match ← w.paths? 2 with
    | [kernel, script] =>
      let sizes ← (w.values "--size").mapM size?
      let seed ← w.single? "--seed" (fun s => (Decimal.natural? s.toList).map (·.toUInt64)) 0
      let tolerance ← w.single? "--tolerance" (fun s => Decimal.double? s.toList) 0
      return verify kernel script (← w.target?) sizes seed tolerance
    | _ => none
  | _ => none

/-- The files that a command reads. -/
def files : Command → List String
  | print kernel _ => [kernel]
  | schedule kernel script _ _ => [kernel, script]
  | verify kernel script _ _ _ _ => [kernel, script]

end Command

end LoopNest
