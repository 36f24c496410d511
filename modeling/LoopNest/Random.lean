/-!
# Random words

A word for every place of every named stream, by mixing the seed, the name and the place.
-/

namespace LoopNest.Random

/-- Spread the bits of a word. -/
def mix (x : UInt64) : UInt64 :=
  let x := (x ^^^ (x >>> 30)) * 0xbf58476d1ce4e5b9
  let x := (x ^^^ (x >>> 27)) * 0x94d049bb133111eb
  x ^^^ (x >>> 31)

/-- The word at a place of a stream. -/
def word (seed : UInt64) (stream : String) (place : Nat) : UInt64 :=
  let start := stream.toList.foldl (fun x c => mix (x + c.toNat.toUInt64)) (mix seed)
  mix (start + 0x9e3779b97f4a7c15 * (place.toUInt64 + 1))

/-- A number from -1 to before 1. -/
def unit (x : UInt64) : Float := (x >>> 11).toFloat / 4503599627370496 - 1

/-- An integer from -8 to 7. -/
def small (x : UInt64) : Float := (x >>> 60).toFloat - 8

end LoopNest.Random
