/-!
# Parsers that remember where they stopped

A parser reads a list of characters from the left. It answers with a value and the characters after
it, or with the characters that were left when it gave up: an error message points there. A sequence
does not take back what its first part read; an alternative starts again from the beginning, and so
does an optional part that is absent.
-/

namespace LoopNest.Text

/-- The outcome of a parser: a value and the rest of the input, or the rest where it gave up. -/
inductive Parsed (α : Type) where
  | ok (value : α) (rest : List Char)
  | stop (rest : List Char)

/-- A parser for values of type `α`. -/
def Parser (α : Type) : Type := List Char → Parsed α

namespace Parser

variable {α β : Type}

protected def pure (a : α) : Parser α := fun s => .ok a s

protected def bind (p : Parser α) (f : α → Parser β) : Parser β := fun s =>
  match p s with
  | .ok a rest => f a rest
  | .stop rest => .stop rest

instance : Monad Parser where
  pure := Parser.pure
  bind := Parser.bind

/-- Give up without reading anything. -/
def fail : Parser α := fun s => .stop s

/-- The input that is left, unread. -/
def peek : Parser (List Char) := fun s => .ok s s

/-- Try `p`, then `q` from the same place; if both give up, stop where `q` did. -/
def orElse (p q : Parser α) : Parser α := fun s =>
  match p s with
  | .ok a rest => .ok a rest
  | .stop _ => q s

/-- `p` if it is there, and nothing is read otherwise. -/
def optional (p : Parser α) : Parser (Option α) := fun s =>
  match p s with
  | .ok a rest => .ok (some a) rest
  | .stop _ => .ok none s

/-- A value that may be missing, after whatever was read to find it. -/
def ofOption : Option α → Parser α
  | some a => Parser.pure a
  | none => fail

/-- One character of a class. -/
def satisfy (good : Char → Bool) : Parser Char := fun s =>
  match s with
  | c :: rest => if good c then .ok c rest else .stop s
  | [] => .stop s

/-- The longest run of characters of a class, possibly empty. -/
def takeWhile (good : Char → Bool) : Parser (List Char) := fun s =>
  .ok (s.takeWhile good) (s.dropWhile good)

/-- The longest run of characters of a class, at least one. -/
def takeWhile1 (good : Char → Bool) : Parser (List Char) := fun s =>
  if (s.takeWhile good).isEmpty then .stop s else .ok (s.takeWhile good) (s.dropWhile good)

/-- The rest of `s` after `word`, if `s` starts with it. -/
def after? : (word s : List Char) → Option (List Char)
  | [], s => some s
  | _ :: _, [] => none
  | w :: ws, c :: cs => if w = c then after? ws cs else none

theorem after?_eq_some {word s rest : List Char} : after? word s = some rest ↔ s = word ++ rest := by
  induction word generalizing s with
  | nil => simp [after?, eq_comm]
  | cons w ws ih =>
    cases s with
    | nil => simp [after?]
    | cons c cs =>
      by_cases h : w = c
      · simp [after?, h, ih]
      · simp [after?, h, Ne.symm h]

/-- Exactly the text `word`. -/
def text (word : String) : Parser Unit := fun s =>
  match after? word.toList s with
  | some rest => .ok () rest
  | none => .stop s

/-- Does the input start with `word`? -/
def startsWith (word : String) : Parser Bool := fun s => .ok (after? word.toList s).isSome s

/-- Repeat `step`, at most once for each character of `bound`, until it answers `none`. -/
def iterateUpTo (step : α → Parser (Option α)) : (bound : List Char) → α → Parser α
  | [], a => Parser.pure a
  | _ :: bound, a => fun s =>
    match step a s with
    | .ok (some b) rest => iterateUpTo step bound b rest
    | .ok none rest => .ok a rest
    | .stop rest => .stop rest

/-- Repeat `step` until it answers `none`. A step that goes on reads at least one character, so the
input bounds the number of steps but the last. -/
def iterate (step : α → Parser (Option α)) (a : α) : Parser α := fun s =>
  iterateUpTo step (' ' :: s) a s

/-- Collect, last first, what `p` reads after separators, as long as both are there. A separator
with nothing after it is left unread. -/
def moreSeparated (p : Parser α) (sep : Parser Unit) (start : List α) : Parser (List α) :=
  iterate (fun acc => do return (← optional (do sep; p)).map (· :: acc)) start

/-- One or more `p` with separators between them. -/
def separated1 (p : Parser α) (sep : Parser Unit) : Parser (List α) := do
  let first ← p
  return (← moreSeparated p sep [first]).reverse

/-- Any number of `p` with separators between them. -/
def separated (p : Parser α) (sep : Parser Unit) : Parser (List α) := do
  match ← optional p with
  | none => return []
  | some first => return (← moreSeparated p sep [first]).reverse

end Parser

end LoopNest.Text
