import LoopNest.Decimal.Layout

/-!
# JSON values and their text

An integer that is written without fraction and exponent is kept exactly; any other number is a
double. Objects keep their fields in order.
-/

namespace LoopNest

/-- A JSON value. -/
inductive Json where
  | null
  | bool (value : Bool)
  | int (value : Int)
  | float (value : Float)
  | str (value : String)
  | arr (items : List Json)
  | obj (fields : List (String × Json))
deriving Inhabited

namespace Json

/-! ### Building and taking apart -/

def strs (items : List String) : Json := .arr (items.map .str)

def nat (n : Nat) : Json := .int n

/-- `null` for nothing. -/
def ofOption {α : Type} (f : α → Json) : Option α → Json
  | some a => f a
  | none => null

/-- The field of an object; the last one if there are several of that name. -/
def field? (key : String) : Json → Option Json
  | obj fields => (fields.reverse.find? (·.1 = key)).map (·.2)
  | _ => none

def str? : Json → Option String
  | str s => some s
  | _ => none

def bool? : Json → Option Bool
  | bool b => some b
  | _ => none

def int? : Json → Option Int
  | int n => some n
  | _ => none

/-- A natural number of 64 bits. -/
def nat? : Json → Option Nat
  | int n => if 0 ≤ n then some n.toNat else none
  | _ => none

def items? : Json → Option (List Json)
  | arr items => some items
  | _ => none

def fields? : Json → Option (List (String × Json))
  | obj fields => some fields
  | _ => none

/-! ### Text -/

def hexDigit (n : Nat) : Char := Nat.digitChar (n % 16)

/-- How a character is written in a JSON string. -/
def escapeChar (c : Char) : String :=
  if c = '"' then "\\\""
  else if c = '\\' then "\\\\"
  else if c = '\n' then "\\n"
  else if c = '\r' then "\\r"
  else if c = '\t' then "\\t"
  else if c = '\x08' then "\\b"
  else if c = '\x0c' then "\\f"
  else if c.toNat < 32 then "\\u00" ++ String.ofList [hexDigit (c.toNat / 16), hexDigit c.toNat]
  else c.toString

def quote (s : String) : String :=
  "\"" ++ s.toList.foldl (fun acc c => acc ++ escapeChar c) "" ++ "\""

/-- Doubles are positional from 0.00001 up to 16 digits before the point, and exponents are
signed. -/
def number : Decimal.Layout where
  positional := some (-5, 15)
  pointZero := true
  plusSign := true
  tie := .toEven

/-- A double; there is no text for one that is not finite. -/
def floatText (x : Float) : String := if x.isFinite then number.render x else "null"

mutual

/-- The value on one line, without blanks. -/
def compact : Json → String
  | null => "null"
  | bool b => if b then "true" else "false"
  | int n => toString n
  | float x => floatText x
  | str s => quote s
  | arr items => "[" ++ ",".intercalate (compactItems items) ++ "]"
  | obj fields => "\x7b" ++ ",".intercalate (compactFields fields) ++ "\x7d"

def compactItems : List Json → List String
  | [] => []
  | j :: rest => j.compact :: compactItems rest

def compactFields : List (String × Json) → List String
  | [] => []
  | (key, j) :: rest => (quote key ++ ":" ++ j.compact) :: compactFields rest

end

/-- A line feed and `depth` levels of indentation. -/
def newLine (depth : Nat) : String := "\n" ++ String.ofList (List.replicate (2 * depth) ' ')

/-- Parts in brackets, one to a line. -/
def stacked (depth : Nat) (opening closing : String) : List String → String
  | [] => opening ++ closing
  | parts =>
    opening ++ newLine (depth + 1) ++ ("," ++ newLine (depth + 1)).intercalate parts ++
      newLine depth ++ closing

mutual

/-- The value with one item or field to a line; `depth` is the level it stands at. -/
def pretty (depth : Nat) : Json → String
  | null => "null"
  | bool b => if b then "true" else "false"
  | int n => toString n
  | float x => floatText x
  | str s => quote s
  | arr items => stacked depth "[" "]" (prettyItems (depth + 1) items)
  | obj fields => stacked depth "\x7b" "\x7d" (prettyFields (depth + 1) fields)

def prettyItems (depth : Nat) : List Json → List String
  | [] => []
  | j :: rest => j.pretty depth :: prettyItems depth rest

def prettyFields (depth : Nat) : List (String × Json) → List String
  | [] => []
  | (key, j) :: rest => (quote key ++ ": " ++ j.pretty depth) :: prettyFields depth rest

end

end Json

end LoopNest
