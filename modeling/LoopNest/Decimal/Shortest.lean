import LoopNest.Word

/-!
# The fewest decimal digits that stand for a double

A finite double is `m * 2^q`. The reals that round to it form an interval: from half way to the
neighbour below to half way to the neighbour above, ends included exactly when `m` is even.
`shortest` picks the decimal with the fewest digits in that interval, and of those the nearest to
the value. All comparisons are between naturals.
-/

namespace LoopNest.Decimal

/-- The magnitude `mantissa * 2^exponent` of a finite double. -/
structure Magnitude where
  mantissa : Nat
  exponent : Int
  /-- The gap to the neighbour below is half the gap to the neighbour above. -/
  narrowBelow : Bool

/-- The magnitude of a finite double, from its bits. -/
def Magnitude.ofBits (bits : UInt64) : Magnitude :=
  let e := ((bits >>> 52) &&& 0x7FF).toNat
  let f := (bits &&& 0xFFFFFFFFFFFFF).toNat
  if e = 0 then ⟨f, -1074, false⟩ else ⟨2 ^ 52 + f, (e : Int) - 1075, f == 0 && e > 1⟩

def Magnitude.ofFloat (x : Float) : Magnitude := .ofBits x.toBits

/-- The number itself, if it is an integer. -/
def Magnitude.toNat? (x : Magnitude) : Option Nat :=
  let unit := 2 ^ (-x.exponent).toNat
  if x.mantissa % unit = 0 then some (x.mantissa * 2 ^ x.exponent.toNat / unit) else none

/-- The decimal `digits * 10^exponent`. -/
structure Scaled where
  digits : Nat
  exponent : Int
deriving DecidableEq

/-- Compare `a * 10^i` with `n * 2^j`. -/
def compareScaled (a : Nat) (i : Int) (n : Nat) (j : Int) : Ordering :=
  compare (a * 10 ^ i.toNat * 2 ^ (-j).toNat) (n * 2 ^ j.toNat * 10 ^ (-i).toNat)

/-- Does the decimal lie among the reals that round to `x`? -/
def Magnitude.readsBack (x : Magnitude) (d : Scaled) : Bool :=
  let low := compareScaled d.digits d.exponent
    (if x.narrowBelow then 4 * x.mantissa - 1 else 4 * x.mantissa - 2) (x.exponent - 2)
  let high := compareScaled d.digits d.exponent (4 * x.mantissa + 2) (x.exponent - 2)
  let endsIn := x.mantissa % 2 == 0
  (low == .gt || (endsIn && low == .eq)) && (high == .lt || (endsIn && high == .eq))

/-- Which of two decimals equally near to the value is taken. -/
inductive Tie where
  | toEven
  | away

/-- The least `k` with `x < 10^k`, for a magnitude that is not zero. -/
def Magnitude.scale (x : Magnitude) : Int :=
  let guess := (x.mantissa.log2 + x.exponent) * 30103 / 100000
  let below (k : Int) : Bool := compareScaled 1 k x.mantissa x.exponent == .gt
  if below (guess - 1) then guess - 1
  else if below guess then guess
  else if below (guess + 1) then guess + 1
  else guess + 2

/-- The integral part of `x / 10^grid`. -/
def Magnitude.onGrid (x : Magnitude) (grid : Int) : Nat :=
  x.mantissa * 2 ^ x.exponent.toNat * 10 ^ (-grid).toNat /
    (10 ^ grid.toNat * 2 ^ (-x.exponent).toNat)

/-- The neighbour of `x` among the multiples of `10^grid` that reads back, if any; of two, the
nearer. -/
def Magnitude.neighbour (tie : Tie) (x : Magnitude) (grid : Int) : Option Scaled :=
  let down : Scaled := ⟨x.onGrid grid, grid⟩
  let up : Scaled := ⟨x.onGrid grid + 1, grid⟩
  match x.readsBack down, x.readsBack up with
  | false, false => none
  | true, false => some down
  | false, true => some up
  | true, true =>
    match compareScaled (2 * down.digits + 1) grid (2 * x.mantissa) x.exponent with
    | .lt => some up
    | .gt => some down
    | .eq =>
      match tie with
      | .away => some up
      | .toEven => if down.digits % 2 = 0 then some down else some up

/-- The value of `x` written out in full. -/
def Magnitude.exact (x : Magnitude) : Scaled :=
  ⟨x.mantissa * 2 ^ x.exponent.toNat * 5 ^ (-x.exponent).toNat, min x.exponent 0⟩

/-- Move trailing zeros from the digits to the exponent, at most `n` of them. -/
def Scaled.dropZeros : (n : Nat) → Scaled → Scaled
  | 0, d => d
  | n + 1, d =>
    if d.digits != 0 && d.digits % 10 == 0 then dropZeros n ⟨d.digits / 10, d.exponent + 1⟩ else d

/-- The shortest decimal that reads back as `x`; seventeen digits are always enough. -/
def Magnitude.shortest (tie : Tie) (x : Magnitude) : Scaled :=
  if x.mantissa = 0 then ⟨0, 0⟩
  else
    let k := x.scale
    let found := (List.range 17).findSome? fun n => x.neighbour tie (k - (n + 1 : Nat))
    (found.getD x.exact).dropZeros 20

end LoopNest.Decimal
