import LoopNest.Text.Blank
import LoopNest.Text.Parser

/-!
# Lexemes shared by kernels, selectors and scripts

Blanks and comments, identifiers, keywords and quoted strings. A quoted string escapes the quote,
the backslash, the line feed and the tab; `quote` writes one and `quoted` reads it.
-/

namespace LoopNest.Text

open LoopNest.Text.Parser

/-- Skip white space and comments; `inComment` says whether a comment is being skipped. -/
def skipBlanksFrom : (inComment : Bool) → List Char → List Char
  | _, [] => []
  | true, c :: cs => skipBlanksFrom (c != '\n') cs
  | false, '/' :: '/' :: cs => skipBlanksFrom true cs
  | false, c :: cs => if isCodeBlank c then skipBlanksFrom false cs else c :: cs

/-- Skip white space and `//` comments, which run to the end of the line. -/
def blanks : Parser Unit := fun s => .ok () (skipBlanksFrom false s)

/-- Characters that start an identifier. -/
def isIdentStart (c : Char) : Bool := c.isAlpha || c == '_'

/-- Characters that go on with an identifier. -/
def isIdentRest (c : Char) : Bool := c.isAlphanum || c == '_'

/-- Is the whole text one identifier? -/
def isIdent (s : String) : Bool :=
  match s.toList with
  | [] => false
  | c :: cs => isIdentStart c && cs.all isIdentRest

/-- An ASCII letter or underscore, then letters, digits and underscores. -/
def ident : Parser String := do
  let c ← satisfy isIdentStart
  let cs ← takeWhile isIdentRest
  return String.ofList (c :: cs)

/-- The text `word`, when it is not the start of a longer identifier. -/
def keyword (word : String) : Parser Unit := fun s =>
  match after? word.toList s with
  | none => .stop s
  | some rest =>
    match rest with
    | c :: _ => if isIdentRest c then .stop s else .ok () rest
    | [] => .ok () rest

/-- Is the keyword there? It is read if so. -/
def hasKeyword (word : String) : Parser Bool := do
  return (← optional (keyword word)).isSome

/-- `p` between blanks. -/
def spaced {α : Type} (p : Parser α) : Parser α := do
  blanks
  let a ← p
  blanks
  return a

/-- A non-empty list with commas. -/
def commaList {α : Type} (p : Parser α) : Parser (List α) :=
  separated1 (spaced p) (text ",")

/-- `open`, blanks, `p`, blanks, `close`. -/
def enclosed {α : Type} (left : String) (p : Parser α) (right : String) : Parser α := do
  text left
  blanks
  let a ← p
  blanks
  text right
  return a

/-! ### Quoted strings -/

/-- The characters after a backslash that stand for another character. -/
def unescape : Char → List Char
  | '"' => ['"']
  | '\\' => ['\\']
  | 'n' => ['\n']
  | 't' => ['\t']
  | c => ['\\', c]

/-- The inside of a quoted string and what follows its closing quote; `acc` holds what was read,
last first. -/
def quotedFrom (acc : List Char) : List Char → Parsed String
  | [] => .stop []
  | '"' :: cs => .ok (String.ofList acc.reverse) cs
  | ['\\'] => .stop []
  | '\\' :: c :: cs => quotedFrom ((unescape c).reverse ++ acc) cs
  | c :: cs => quotedFrom (c :: acc) cs

/-- A string in double quotes. A backslash before any other character stands for itself. -/
def quoted : Parser String := do
  text "\""
  quotedFrom []

/-- How a character is written inside quotes. -/
def escape : Char → List Char
  | '"' => ['\\', '"']
  | '\\' => ['\\', '\\']
  | '\n' => ['\\', 'n']
  | '\t' => ['\\', 't']
  | c => [c]

/-- The text in double quotes. -/
def quote (s : String) : String :=
  "\"" ++ String.ofList (s.toList.flatMap escape) ++ "\""

theorem quotedFrom_escape (acc : List Char) (c : Char) (rest : List Char) :
    quotedFrom acc (escape c ++ rest) = quotedFrom (c :: acc) rest := by
  unfold escape
  split
  · simp [quotedFrom, unescape]
  · simp [quotedFrom, unescape]
  · simp [quotedFrom, unescape]
  · simp [quotedFrom, unescape]
  · rename_i h1 h2 _ _
    rw [List.singleton_append, quotedFrom.eq_def]
    split <;> simp_all

theorem quotedFrom_flatMap_escape (acc cs rest : List Char) :
    quotedFrom acc (cs.flatMap escape ++ '"' :: rest) =
      .ok (String.ofList (acc.reverse ++ cs)) rest := by
  induction cs generalizing acc with
  | nil => simp [quotedFrom]
  | cons c cs ih => simp [quotedFrom_escape, ih]

end LoopNest.Text
