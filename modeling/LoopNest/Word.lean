/-!
# Machine words

Literals, loop bounds and index values are 64-bit signed integers. Every operation here is checked:
it gives a word exactly when the mathematical result is one (`ofInt?_eq_some`), so a caller sees an
overflow as `none` and decides what it means.
-/

namespace LoopNest

/-- A power of numbers is the built-in one, also where monoids have theirs. -/
@[default_instance 10001]
instance (priority := 10001) builtinPow {α : Type} [NatPow α] : Pow α Nat := instPowNat

/-- A 64-bit signed integer. -/
abbrev Word := Int64

namespace Word

/-- The word with value `n`, if there is one. -/
def ofInt? (n : Int) : Option Word :=
  if -9223372036854775808 ≤ n ∧ n ≤ 9223372036854775807 then some (Int64.ofInt n) else none

def add? (a b : Word) : Option Word := ofInt? (a.toInt + b.toInt)

def sub? (a b : Word) : Option Word := ofInt? (a.toInt - b.toInt)

def mul? (a b : Word) : Option Word := ofInt? (a.toInt * b.toInt)

def neg? (a : Word) : Option Word := ofInt? (-a.toInt)

def abs? (a : Word) : Option Word := ofInt? a.toInt.natAbs

/-- Euclidean quotient; `none` for a zero divisor and for the one quotient that is no word. -/
def div? (a b : Word) : Option Word :=
  if b = 0 then none else ofInt? (a.toInt / b.toInt)

/-- Euclidean remainder, defined exactly where the quotient is. -/
def mod? (a b : Word) : Option Word :=
  match div? a b with
  | none => none
  | some _ => ofInt? (a.toInt % b.toInt)

/-- Decimal text. -/
def text (a : Word) : String := toString a.toInt

/-! ### The value of a checked result -/

theorem toInt_mem (w : Word) : -9223372036854775808 ≤ w.toInt ∧ w.toInt ≤ 9223372036854775807 := by
  have h1 := Int64.le_toInt w
  have h2 := Int64.toInt_lt w
  omega

theorem ofInt?_eq_some {n : Int} {w : Word} : ofInt? n = some w ↔ w.toInt = n := by
  unfold ofInt?
  constructor
  · intro h
    split at h
    · rename_i hn
      obtain rfl := Option.some.inj h
      exact Int64.toInt_ofInt_of_le (by omega) (by omega)
    · simp at h
  · rintro rfl
    rw [if_pos (toInt_mem w)]
    simp

theorem ofInt?_eq_none {n : Int} :
    ofInt? n = none ↔ n < -9223372036854775808 ∨ 9223372036854775807 < n := by
  unfold ofInt?
  split
  · simp; omega
  · simp; omega

@[simp] theorem ofInt?_toInt (w : Word) : ofInt? w.toInt = some w := ofInt?_eq_some.2 rfl

end Word

end LoopNest
