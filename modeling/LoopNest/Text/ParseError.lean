import LoopNest.Text.Lexeme

/-!
# Parse errors

An error says what went wrong and at which byte the reading stood.
-/

namespace LoopNest

/-- Why a text could not be read, and the byte offset. -/
structure ParseError where
  message : String
  offset : Nat
deriving DecidableEq

namespace ParseError

def display (e : ParseError) : String :=
  "parse error at offset " ++ toString e.offset ++ ": " ++ e.message

/-- The text of a failure without further detail. -/
def noDetail : String := "Parsing Error: ContextError \x7b context: [], cause: None \x7d"

def expected (what : String) (offset : Nat) : ParseError :=
  ⟨"expected " ++ what ++ ": " ++ noDetail, offset⟩

def trailing (what : String) (offset : Nat) : ParseError :=
  ⟨"trailing input after " ++ what, offset⟩

end ParseError

namespace Text

/-- The byte offset in `s` at which `rest` is left. -/
def offset (s : String) (rest : List Char) : Nat := byteLength s.toList - byteLength rest

/-- Read all of `s` with `p`, with blanks before and after. -/
def whole {α : Type} (what : String) (p : Parser α) (s : String) : Except ParseError α :=
  match spaced p s.toList with
  | .stop rest => .error (.expected what (offset s rest))
  | .ok a [] => .ok a
  | .ok _ rest => .error (.trailing what (offset s rest))

/-- A parser that says in words why it gives up, together with the input left. -/
abbrev Explained := StateT (List Char) (Except (String × List Char))

/-- Give `reason` when the parser gives up. -/
def explain {α : Type} (reason : String) (p : Parser α) : Explained α := fun s =>
  match p s with
  | .ok a rest => .ok (a, rest)
  | .stop rest => .error (reason, rest)

/-- Run it on `s` and turn the input left into an offset. -/
def explained {α : Type} (s : String) (p : Explained α) : Except ParseError α :=
  match p s.toList with
  | .ok (a, _) => .ok a
  | .error (reason, rest) => .error ⟨reason, offset s rest⟩

end Text

end LoopNest
