/-!
# Sets of characters

A property of characters is given by the lengths of its runs: how many code points do not have it
from 0 on, how many then do, and so on in turn. `Runs.hasFrom_iff` says which code points these are.
-/

namespace LoopNest.Text

/-- A set of code points, by the lengths of the runs outside it and inside it, in turn. -/
abbrev Runs := List Nat

namespace Runs

/-- Is the code point that is `n` beyond the start of the next run in the set? That run is inside the
set if `inside` says so, and after the last one there are no members. -/
def hasFrom (inside : Bool) : Runs → Nat → Bool
  | [], _ => false
  | run :: rest, n => if n < run then inside else hasFrom (!inside) rest (n - run)

def has (r : Runs) (c : Char) : Bool := hasFrom false r c.toNat

/-- The members are the code points in every other run. -/
theorem hasFrom_iff {inside : Bool} {r : Runs} {n : Nat} :
    hasFrom inside r n = true ↔ ∃ i < r.length, (i % 2 = 0 ↔ inside = true) ∧
      (r.take i).foldr (· + ·) 0 ≤ n ∧ n < (r.take (i + 1)).foldr (· + ·) 0 := by
  induction r generalizing inside n with
  | nil => simp [hasFrom]
  | cons run rest ih =>
    rw [hasFrom]
    split
    next hn =>
      constructor
      · intro hinside
        exact ⟨0, by simp, by simpa using hinside, by simp, by simpa using hn⟩
      · rintro ⟨i, -, hturn, hlo, -⟩
        cases i with
        | zero => exact hturn.1 rfl
        | succ i =>
          simp only [List.take_succ_cons, List.foldr_cons] at hlo
          omega
    next hn =>
      rw [ih]
      constructor
      · rintro ⟨i, hi, hturn, hlo, hhi⟩
        refine ⟨i + 1, by simpa using hi, ?_, ?_, ?_⟩
        · cases inside <;> simp at hturn ⊢ <;> omega
        · simp only [List.take_succ_cons, List.foldr_cons]
          omega
        · simp only [List.take_succ_cons, List.foldr_cons] at hhi ⊢
          omega
      · rintro ⟨i, hi, hturn, hlo, hhi⟩
        cases i with
        | zero => simp at hhi; omega
        | succ i =>
          simp only [List.take_succ_cons, List.foldr_cons] at hlo hhi
          refine ⟨i, by simpa using hi, ?_, by omega, by omega⟩
          cases inside <;> simp at hturn ⊢ <;> omega

end Runs

end LoopNest.Text
