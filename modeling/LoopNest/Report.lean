import LoopNest.Schedule.Replay
import LoopNest.Text.Width

/-!
# Reports

An error in a text is shown with the line it stands in:

```text
[NotFound] Error: step 1 `unroll` failed
   ╭─[ s.sched:3:1 ]
   │
 3 │ unroll("for q in _:_")
   │ ───────────┬──────────
   │            ╰──────────── no match for `for q in _:_`
───╯
```

A tab is shown as blanks up to the next multiple of four characters, and any other white space as
one blank. The marks under a line are as wide as the characters above them.
-/

namespace LoopNest

/-- The colour of a label. -/
inductive Colour where
  | yellow
  | red
  | magenta
  | cyan
  | blue

def Colour.name : Colour → String
  | yellow => "Yellow"
  | red => "Red"
  | magenta => "Magenta"
  | cyan => "Cyan"
  | blue => "Blue"

def StepError.Kind.colour : StepError.Kind → Colour
  | notFound | ambiguous | invalidSelector | invalidState | nameCollision => .yellow
  | dependencyViolation | aliasViolation => .red
  | shapeMismatch | notConstantBound => .magenta
  | invalidMemorySpace => .cyan
  | templateMismatch | unknownTemplate => .blue

/-- What is wrong, and the part of the text that it is about. -/
structure Report where
  code : String
  message : String
  label : String
  span : Span
  colour : Colour

namespace Report

def ofParseError (e : ParseError) : Report where
  code := "ParseError"
  message := "could not parse input"
  label := e.message
  span := ⟨e.offset, e.offset⟩
  colour := .red

/-- A refused step of a script. -/
def ofStep (s : Script) (f : FailedStep) (e : StepError) : Report where
  code := e.kind.name
  message := s!"step {f.index} `{f.step.op}` failed"
  label := e.message
  span := s.spans[f.index]?.getD ⟨0, 0⟩
  colour := e.kind.colour

/-! ### Lines -/

/-- The characters that end a line. -/
def isLineEnd (c : Char) : Bool :=
  c == '\r' || c == '\n' || c == '\x0b' || c == '\x0c' || c == '\u0085' || c == '\u2028' ||
    c == '\u2029'

/-- The lines of a text with what ends them; a carriage return and a line feed end one line. -/
def textLines : List Char → List (List Char)
  | [] => []
  | c :: cs =>
    match cs, textLines cs with
    | _, [] => [[c]]
    | '\n' :: _, l :: ls => if c = '\r' then (c :: l) :: ls else joinLine c l ls
    | _, l :: ls => joinLine c l ls
where
  joinLine (c : Char) (l : List Char) (ls : List (List Char)) : List (List Char) :=
    if isLineEnd c then [c] :: l :: ls else (c :: l) :: ls

/-- The number of the line that holds a byte, the line, and the byte's place in it. What lies behind
the text belongs to the last line. -/
def lineAt (byte : Nat) : (number : Nat) → List (List Char) → Nat × List Char × Nat
  | number, [] => (number, [], byte)
  | number, [l] => (number, l, byte)
  | number, l :: ls =>
    if byte < Text.byteLength l then (number, l, byte)
    else lineAt (byte - Text.byteLength l) (number + 1) ls

/-- The number of characters that occupy so many bytes at the beginning of a line. -/
def charsIn? : (bytes : Nat) → List Char → Option Nat
  | 0, _ => some 0
  | _ + 1, [] => none
  | n + 1, c :: cs =>
    if c.utf8Size ≤ n + 1 then (charsIn? (n + 1 - c.utf8Size) cs).map (· + 1) else none

/-! ### Drawing -/

/-- How a character is shown and how many places it takes; `column` counts characters. -/
def shown (column : Nat) (c : Char) : Char × Nat :=
  if c = '\t' then (' ', (column / 4 + 1) * 4 - column)
  else if Text.isBlank c then (' ', 1)
  else (c, Text.width c)

/-- The line as it is shown; only a blank is repeated to fill its places. -/
def showLine (line : List Char) : String :=
  String.ofList (line.zipIdx.flatMap fun (c, column) =>
    match shown column c with
    | (' ', width) => List.replicate width ' '
    | (c, _) => [c])

/-- The places of each column of a line, with columns of one place behind its end. -/
def widths (line : List Char) (columns : Nat) : List Nat :=
  let within := (line.take columns).zipIdx.map fun (c, column) => (shown column c).2
  within ++ List.replicate (columns - within.length) 1

/-- A row of marks under a line: for every column a first mark, and another one for the further
places of a wide character. -/
def markRow (widths : List Nat) (mark : Nat → Char × Char) : String :=
  String.ofList (widths.zipIdx.flatMap fun (width, column) =>
    let (first, further) := mark column
    (List.replicate width further).set 0 first)

/-- The marks of a label from column `start` to before `stop`. -/
def underline (start stop column : Nat) : Char × Char :=
  let middle := (start + stop) / 2
  if column = middle then ('┬', '─')
  else if start ≤ column && column < stop then ('─', '─')
  else (' ', ' ')

/-- The arrow from the middle of a label to its message. -/
def arrow (start stop column : Nat) : Char × Char :=
  let middle := (start + stop) / 2
  if column = middle then ('╰', '─') else if middle < column then ('─', '─') else (' ', ' ')

def repeated (n : Nat) (c : Char) : String := String.ofList (List.replicate n c)

/-- The report on a part of a text. A label has to consist of whole characters of one line. -/
def render? (r : Report) (file source : String) : Option String := do
  let size := Text.byteLength source.toList
  let span ← Span.nonempty? ⟨min r.span.start size, min r.span.stop size⟩
  let lines := textLines source.toList
  let (number, line, first) := lineAt span.start 1 lines
  let (lastNumber, _, last) := lineAt (span.stop - 1) 1 lines
  if lastNumber ≠ number then none
  let start ← charsIn? first line
  let stop ← charsIn? (last + 1) line
  let visible := Text.trimRight line
  let columns := widths visible (stop + 2)
  let digits := toString number
  let margin := repeated (digits.length + 2) ' '
  return String.join [
    "[", r.code, "] Error: ", r.message, "\n",
    margin, "╭─[ ", file, ":", digits, ":", toString (start + 1), " ]\n",
    margin, "│\n",
    " ", digits, " │ ", showLine visible, "\n",
    margin, "│ ", markRow columns (underline start stop), "\n",
    margin, "│ ", markRow columns (arrow start stop), " ", r.label, "\n",
    repeated (digits.length + 2) '─', "╯\n"]

end Report

end LoopNest
