import LoopNest.Word

/-!
# Reading numbers

The double nearest to a decimal, and the double obtained by scaling in floating point, which is what
the JSON form of a kernel uses.
-/

namespace LoopNest.Decimal

def isDigit (c : Char) : Bool := '0' ≤ c && c ≤ '9'

def digitValue (c : Char) : Nat := c.toNat - '0'.toNat

/-- The number a list of digits stands for. -/
def ofDigits (cs : List Char) : Nat := cs.foldl (fun n c => 10 * n + digitValue c) 0

def infinity : Float := 1.0 / 0.0

/-- The double nearest to `digits * 10^exponent`; too large a number is infinite. -/
def nearest (digits : Nat) (exponent : Int) : Float :=
  let leading := exponent + (toString digits).length
  if digits = 0 ∨ leading < -330 then 0.0
  else if 320 < leading then infinity
  else Float.ofScientific digits (exponent < 0) exponent.natAbs

/-- `digits * 10^exponent` by one floating-point multiplication or division, or several divisions
when the power of ten is no double. `none` if the result is infinite. -/
def scaled? (digits : Nat) (exponent : Int) : Option Float :=
  let power (n : Nat) : Float := Float.ofScientific 1 false n
  let rec divide : (fuel : Nat) → Float → Nat → Float
    | 0, x, _ => x
    | fuel + 1, x, n =>
      if n ≤ 308 then x / power n else if x == 0.0 then x else divide fuel (x / power 308) (n - 308)
  let x := Float.ofNat digits
  if exponent < 0 then some (divide 5 x exponent.natAbs)
  else if 308 < exponent.natAbs then (if x == 0.0 then some x else none)
  else
    let y := x * power exponent.natAbs
    if y.isInf then none else some y

/-! ### Whole texts -/

/-- One or more digits. -/
def digits? (s : List Char) : Option Nat :=
  if s.isEmpty || !s.all isDigit then none else some (ofDigits s)

/-- A natural number of 64 bits, with an optional `+`. -/
def natural? (s : List Char) : Option Nat := do
  let n ← digits? (match s with
    | '+' :: rest => rest
    | _ => s)
  if n < 2 ^ 64 then some n else none

/-- An integer with an optional sign. -/
def integer? : List Char → Option Int
  | '-' :: rest => (digits? rest).map fun n => -(n : Int)
  | '+' :: rest => (digits? rest).map (·)
  | s => (digits? s).map (·)

/-- The power of ten after the mantissa, if any. -/
def exponent? : List Char → Option Int
  | [] => some 0
  | c :: rest => if c = 'e' || c = 'E' then integer? rest else none

/-- A number without sign: digits with an optional point among them, and an optional power of
ten; or a word for infinity or for what is no number, in any case. -/
def magnitude? (s : List Char) : Option Float :=
  match String.ofList (s.map Char.toLower) with
  | "inf" | "infinity" => some infinity
  | "nan" => some (0 / 0)
  | _ =>
    let whole := s.takeWhile isDigit
    let (fraction, rest) := match s.dropWhile isDigit with
      | '.' :: rest => (rest.takeWhile isDigit, rest.dropWhile isDigit)
      | rest => ([], rest)
    if whole.isEmpty && fraction.isEmpty then none
    else do
      let e ← exponent? rest
      return nearest (ofDigits (whole ++ fraction)) (e - fraction.length)

/-- A number with an optional sign. -/
def double? : List Char → Option Float
  | '-' :: rest => (magnitude? rest).map fun x => -x
  | '+' :: rest => magnitude? rest
  | s => magnitude? s

end LoopNest.Decimal
