import LoopNest.Decimal.Shortest

/-!
# Writing numbers

A layout says where positional notation ends, whether an integral value keeps a `.0`, and how
exponents are signed. Zero keeps its sign.
-/

namespace LoopNest.Decimal

/-- How the digits of a double are set out. -/
structure Layout where
  /-- The least and the greatest power of ten of the leading digit that is written positionally;
  `none` if all are. -/
  positional : Option (Int × Int)
  /-- Write `12.0` and not `12`. -/
  pointZero : Bool
  /-- Write `1e+16` and not `1e16`. -/
  plusSign : Bool
  tie : Tie

def zeros (n : Nat) : String := String.ofList (List.replicate n '0')

/-- The digits with the decimal point in its place. -/
def Scaled.positional (pointZero : Bool) (d : Scaled) : String :=
  let text := toString d.digits
  if 0 ≤ d.exponent then
    text ++ zeros d.exponent.toNat ++ (if pointZero then ".0" else "")
  else
    let places := (-d.exponent).toNat
    let padded := (zeros (places + 1 - text.length) ++ text).toList
    let whole := padded.length - places
    String.ofList (padded.take whole) ++ "." ++ String.ofList (padded.drop whole)

/-- One digit, a point if more follow, and the power of ten. -/
def Scaled.scientific (plusSign : Bool) (d : Scaled) : String :=
  let text := (toString d.digits).toList
  let power := d.exponent + (text.length - 1 : Nat)
  String.ofList (text.take 1) ++ (if text.length ≤ 1 then "" else "." ++ String.ofList (text.drop 1))
    ++ "e" ++ (if plusSign && 0 ≤ power then "+" else "") ++ toString power

/-- The power of ten of the leading digit. -/
def Scaled.leading (d : Scaled) : Int := d.exponent + ((toString d.digits).length - 1 : Nat)

def Layout.magnitude (l : Layout) (x : Magnitude) : String :=
  let d := x.shortest l.tie
  match l.positional with
  | none => d.positional l.pointZero
  | some (low, high) =>
    if d.digits = 0 ∨ (low ≤ d.leading ∧ d.leading ≤ high) then d.positional l.pointZero
    else d.scientific l.plusSign

/-- The sign bit, also of zero. -/
def isNegative (x : Float) : Bool := x.toBits >>> 63 == 1

/-- The text of a double; infinity is `inf`. -/
def Layout.render (l : Layout) (x : Float) : String :=
  if x.isNaN then "NaN"
  else
    (if isNegative x then "-" else "") ++
      (if x.isInf then "inf" else l.magnitude (.ofFloat x))

/-- Never an exponent, and no more digits than needed. -/
def plain : Layout := ⟨none, false, false, .away⟩

/-- Positional from 0.0001 up to 16 digits before the point, and always with a point. -/
def pointed : Layout := ⟨some (-4, 15), true, false, .away⟩

/-- An integral value with all its digits and `.0`; any other as `plain` writes it. -/
def literal (x : Float) : String :=
  match x.isFinite, (Magnitude.ofFloat x).toNat? with
  | true, some n => (if isNegative x then "-" else "") ++ toString n ++ ".0"
  | _, _ => plain.render x

end LoopNest.Decimal
