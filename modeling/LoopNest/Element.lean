import LoopNest.Decimal.Layout
import LoopNest.Kernel.Types
import LoopNest.Word

/-!
# Elements of buffers

Kernels compute with doubles, and every value is rounded to the element type of the buffer it is
stored in. The interpreter only needs the operations listed in `Element`, so whatever is shown of it
without further assumptions holds for any arithmetic.
-/

namespace LoopNest

/-- The arithmetic that data expressions are evaluated in. -/
class Element (α : Type) where
  ofWord : Word → α
  ofFloat : Float → α
  add : α → α → α
  sub : α → α → α
  mul : α → α → α
  div : α → α → α
  mod : α → α → α
  neg : α → α
  /-- What a buffer of the type holds after the value is stored. -/
  round : Scalar → α → α
  /-- What an allocation holds before anything is stored. -/
  undefined : α

namespace Decimal.Magnitude

/-- The remainder of `x` by `y`, which is not zero. It is a multiple of the smaller unit. -/
def mod (x y : Magnitude) : Magnitude :=
  let e := min x.exponent y.exponent
  let scaled (z : Magnitude) : Nat := z.mantissa * 2 ^ (z.exponent - e).toNat
  ⟨scaled x % scaled y, e, false⟩

/-- The double nearest to the magnitude; `m * 2^(-k)` is the decimal `m * 5^k * 10^(-k)`. -/
def toFloat (x : Magnitude) : Float :=
  let k := (-x.exponent).toNat
  Float.ofScientific (x.mantissa * 2 ^ x.exponent.toNat * 5 ^ k) true k

end Decimal.Magnitude

namespace Double

open Decimal

/-- The remainder of a division that is rounded towards zero. It is exact and has the sign of
`x`. -/
def remainder (x y : Float) : Float :=
  if x.isNaN || y.isNaN || x.isInf || y == 0 then 0 / 0
  else if y.isInf || x == 0 then x
  else
    let r := (Magnitude.ofFloat x).mod (Magnitude.ofFloat y)
    if isNegative x then -r.toFloat else r.toFloat

/-- The remainder brought to the range from 0 to the divisor's magnitude. -/
def euclideanMod (x y : Float) : Float :=
  let r := remainder x y
  if r < 0 then r + y.abs else r

/-- The bits of a double without that of its sign. They are ordered as the magnitudes are. -/
def magnitudeBits (x : Float) : Nat := x.toBits.toNat % 2 ^ 63

def ofMagnitudeBits (negative : Bool) (n : Nat) : Float :=
  let x := Float.ofBits n.toUInt64
  if negative then -x else x

/-- The bits of infinity. Those above are of no number. -/
def infinityBits : Nat := 2047 * 2 ^ 52

/-- The integer nearest to `m / 2^k`; of two, the even one. -/
def nearest (m k : Nat) : Nat :=
  let q := m / 2 ^ k
  let r := m % 2 ^ k
  if 2 * r < 2 ^ k ∨ 2 * r = 2 ^ k ∧ q % 2 = 0 then q else q + 1

/-- The bits of the nearest magnitude whose mantissa is a multiple of `2^k`. -/
def shortenedBits (n k : Nat) : Nat :=
  let m := n % 2 ^ 52 + 2 ^ 52
  let m' := nearest m k * 2 ^ k
  if m' = 0 then 0 else n + m' - m

/-- The bits of the nearest single, which is infinite from `2^128` on. It has 29 bits less in its
mantissa, and none for what is below `2^(-149)`. -/
def singleBits (n : Nat) : Nat :=
  let n' := shortenedBits n (max 29 (926 - n / 2 ^ 52))
  if n' < 1151 * 2 ^ 52 then n' else infinityBits

/-- The bits of the integral part of a magnitude. -/
def integerBits (n : Nat) : Nat :=
  if n < 1023 * 2 ^ 52 then 0 else n - n % 2 ^ (1075 - n / 2 ^ 52)

/-- The integral part, kept between two bounds on either side of zero. There is only one zero, and
what is no number becomes it. -/
def toInteger (least greatest x : Float) : Float :=
  let bound := if isNegative x then least else greatest
  let n := min (integerBits (magnitudeBits x)) (magnitudeBits bound)
  if x.isNaN ∨ n = 0 then 0 else ofMagnitudeBits (isNegative x) n

/-- Floats are rounded to nearest. Integers are cut off towards zero and kept in range, and what is
no number becomes 0. -/
def round (ty : Scalar) (x : Float) : Float :=
  match ty with
  | .f32 => if x.isNaN then x else ofMagnitudeBits (isNegative x) (singleBits (magnitudeBits x))
  | .f64 => x
  | .i32 => toInteger (-2147483648) 2147483647 x
  | .i8 => toInteger (-128) 127 x

instance : Element Float where
  ofWord n := n.toFloat
  ofFloat x := x
  add x y := x + y
  sub x y := x - y
  mul x y := x * y
  div x y := x / y
  mod := euclideanMod
  neg x := -x
  round := round
  undefined := 0 / 0

end Double

end LoopNest
