import LoopNest.Decimal.Reading
import LoopNest.Json.Basic
import LoopNest.Text.Lexeme

/-!
# Reading JSON

A number with a fraction or an exponent is read as an integer of at most 64 bits, further digits
being dropped, and then scaled by a power of ten in floating point.
-/

namespace LoopNest.Json

open Text
open Text.Parser

/-- White space between tokens. -/
def isSpace (c : Char) : Bool := c == ' ' || c == '\t' || c == '\n' || c == '\r'

def spaces : Parser Unit := do
  let _ ← takeWhile isSpace
  return ()

def hexValue? (c : Char) : Option Nat :=
  if '0' ≤ c && c ≤ '9' then some (c.toNat - '0'.toNat)
  else if 'a' ≤ c && c ≤ 'f' then some (c.toNat - 'a'.toNat + 10)
  else if 'A' ≤ c && c ≤ 'F' then some (c.toNat - 'A'.toNat + 10)
  else none

/-- The number four hexadecimal digits stand for. -/
def hex4? (a b c d : Char) : Option Nat := do
  return (((← hexValue? a) * 16 + (← hexValue? b)) * 16 + (← hexValue? c)) * 16 + (← hexValue? d)

def isHighSurrogate (n : Nat) : Bool := 0xD800 ≤ n && n < 0xDC00

def isLowSurrogate (n : Nat) : Bool := 0xDC00 ≤ n && n < 0xE000

/-- The character after a backslash that stands for another. -/
def unescape? : Char → Option Char
  | '"' => some '"'
  | '\\' => some '\\'
  | '/' => some '/'
  | 'b' => some '\x08'
  | 'f' => some '\x0c'
  | 'n' => some '\n'
  | 'r' => some '\r'
  | 't' => some '\t'
  | _ => none

/-- The inside of a string up to its closing quote; `acc` holds what was read, last first, and
`high` a first surrogate that waits for its second. -/
def stringFrom (acc : List Char) (high : Option Nat) : List Char → Parsed String
  | [] => .stop []
  | '\\' :: 'u' :: a :: b :: c :: d :: rest =>
    match high, hex4? a b c d with
    | _, none => .stop rest
    | none, some n =>
      if isHighSurrogate n then stringFrom acc (some n) rest
      else if isLowSurrogate n then .stop rest
      else stringFrom (Char.ofNat n :: acc) none rest
    | some h, some n =>
      if isLowSurrogate n then
        stringFrom (Char.ofNat (0x10000 + (h - 0xD800) * 0x400 + (n - 0xDC00)) :: acc) none rest
      else .stop rest
  | '\\' :: c :: rest =>
    match high, unescape? c with
    | none, some c => stringFrom (c :: acc) none rest
    | _, _ => .stop rest
  | c :: rest =>
    if high.isSome then .stop rest
    else if c = '"' then .ok (String.ofList acc.reverse) rest
    else stringFrom (c :: acc) none rest

def string : Parser String := do
  text "\""
  stringFrom [] none

/-- Append digits to a 64-bit number as long as it stays one; the second result counts the digits
taken. -/
def appendDigits : (n taken : Nat) → List Char → Nat × Nat
  | n, taken, [] => (n, taken)
  | n, taken, c :: cs =>
    let m := 10 * n + Decimal.digitValue c
    if m < 2 ^ 64 then appendDigits m (taken + 1) cs else (n, taken)

/-- The double for digits before the point, digits after it and an exponent. -/
def double? (negative : Bool) (whole fraction : List Char) (exponent : Int) : Option Json :=
  let (n, kept) := appendDigits 0 0 whole
  let (n, places) := appendDigits n 0 fraction
  (Decimal.scaled? n (exponent + (whole.length - kept : Nat) - places)).map fun x =>
    .float (if negative then -x else x)

def numberValue : Parser Json := do
  let negative := (← optional (text "-")).isSome
  let whole ← takeWhile1 Decimal.isDigit
  let fraction ← optional (do text "."; takeWhile1 Decimal.isDigit)
  let exponent ← optional do
    let _ ← satisfy fun c => c == 'e' || c == 'E'
    let sign ← optional (satisfy fun c => c == '+' || c == '-')
    let n : Int := Decimal.ofDigits (← takeWhile1 Decimal.isDigit)
    return if sign == some '-' then -n else n
  let n : Int := Decimal.ofDigits whole
  if fraction.isNone && exponent.isNone && !negative && n < 2 ^ 64 then return .int n
  else if fraction.isNone && exponent.isNone && negative && 0 < n && n ≤ 2 ^ 63 then
    return .int (-n)
  else Parser.ofOption (double? negative whole (fraction.getD []) (exponent.getD 0))

/-- A value nested at most `n` deep, with white space around it. -/
def valueUpTo : Nat → Parser Json
  | 0 => fail
  | n + 1 => do
    spaces
    let v ← value (valueUpTo n)
    spaces
    return v
where
  /-- A value whose parts are read by `inner`. -/
  value (inner : Parser Json) : Parser Json := do
    match (← peek).head? with
    | some '"' => return .str (← string)
    | some '[' =>
      text "["
      let items ← separated inner (text ",")
      spaces
      text "]"
      return .arr items
    | some '\x7b' =>
      text "\x7b"
      let fields ← separated (do spaces; let k ← string; spaces; text ":"; return (k, ← inner))
        (text ",")
      spaces
      text "\x7d"
      return .obj fields
    | some 'n' => text "null"; return .null
    | some 't' => text "true"; return .bool true
    | some 'f' => text "false"; return .bool false
    | _ => numberValue

/-- The value a text stands for, if it is JSON. -/
def parse? (s : String) : Option Json :=
  match valueUpTo (s.length + 1) s.toList with
  | .ok v [] => some v
  | _ => none

end LoopNest.Json
