import LoopNest.Proofs.Canonical
import LoopNest.Proofs.Contract.Steps
import LoopNest.Proofs.Matching.Bounds
import LoopNest.Proofs.Views
import LoopNest.Schedule.Step

/-!
# Steps that overflow

Most arithmetic of the steps is checked. What is not is listed here, each operation with what the
step knows when it comes to it (`Step.Overflows`). Left out are subtractions made right after a
comparison of the same two numbers, sums of lengths, and lengths of what a parser has read. The only
one that may have no result is the sum that rounds a literal bound up to a multiple of a factor
(`Step.overflows_iff`).
-/

namespace LoopNest

namespace Word

variable {n f : Word}

theorem sub?_one_ne_none (h : 1 ≤ n.toInt) : sub? n 1 ≠ none := by
  intro hnone
  have hout := ofInt?_eq_none.1 hnone
  have hmem := n.toInt_mem
  have hone : (1 : Word).toInt = 1 := rfl
  omega

/-- By a positive number one may divide. -/
theorem mod?_ne_none (hf : 0 < f.toInt) : mod? n f ≠ none := by
  have hmem := n.toInt_mem
  have hmem' := f.toInt_mem
  have hlo : -9223372036854775808 ≤ n.toInt / f.toInt := Int.le_ediv_of_mul_le hf (by omega)
  have hhi : n.toInt / f.toInt < 9223372036854775808 := Int.ediv_lt_of_lt_mul hf (by omega)
  have hlo' := Int.emod_nonneg n.toInt hf.ne'
  have hhi' := Int.emod_lt_of_pos n.toInt hf
  rw [mod?, div?, if_neg (mt toInt_eq_zero.2 hf.ne'), ofInt?, if_pos (by omega)]
  intro hnone
  have hout := ofInt?_eq_none.1 hnone
  omega

end Word

/-! ## Loops that are entered -/

/-- What is known of variables in the course of a simplification. A loop is entered after its bound
was found not to be a number below 1. -/
inductive Ranges.Met (sizes : List String) : Ranges → Prop
  | start : Met sizes ⟨sizes, []⟩
  | enter {rs : Ranges} (hrs : Met sizes rs) (h : Header) (zeros : List String)
      (hbound : (h.bound.zeroVars zeros).simplifyIndex.int?.any (· ≤ 0) = false) :
      Met sizes (rs.enter (h.var, (h.bound.zeroVars zeros).simplifyIndex.int?))

theorem Ranges.Met.one_le {sizes : List String} {rs : Ranges} (h : rs.Met sizes) :
    ∀ l ∈ rs.loops, ∀ n, l.2 = some n → 1 ≤ n.toInt := by
  induction h with
  | start => simp
  | enter _ h zeros hbound ih =>
    refine List.forall_mem_cons.2 ⟨fun n hn => ?_, ih⟩
    have hint : (h.bound.zeroVars zeros).simplifyIndex.int? = some n := hn
    rw [hint, Option.any_some, decide_eq_false_iff_not, Int64.not_le] at hbound
    exact Int64.lt_iff_toInt_lt.1 hbound

/-! ## Operations that are not checked -/

/-- An operation that the step does without a check has no result of its type. -/
inductive Step.Overflows (p : Proc) : Step → Prop
  /-- The terms of a variable are added up. -/
  | coefficient {s : Step} {a : Affine} {v : String} :
    a.Obtainable → a.summedCoeff? v = none → Overflows p s
  /-- The terms of all variables are added up. -/
  | coefficients {s : Step} {a : Affine} : a.Obtainable → a.gathered? = none → Overflows p s
  /-- A literal bound is rounded up. -/
  | roundUp {loop outer inner : String} {f n : Word} {path : Path} {h : Header} {body : Block} :
    0 < f → p.pickLoop loop = .ok (path, h, body) → outer ≠ inner →
    p.requireFresh outer = .ok () → p.requireFresh inner = .ok () → h.bound = .int n →
    (Word.add? n f).bind (Word.sub? · 1) = none → Overflows p (.split loop f outer inner false)
  /-- Another bound gets what rounds it up. -/
  | addend {loop outer inner : String} {f : Word} :
    0 < f → Word.sub? f 1 = none → Overflows p (.split loop f outer inner false)
  /-- A bound or one of its coefficients is divided. -/
  | quotient {loop outer inner : String} {f n : Word} {perfect : Bool} :
    0 < f → Word.mod? n f = none → Overflows p (.split loop f outer inner perfect)
  /-- The scopes around a statement are counted. -/
  | depth {stmt : String} {lifts : Nat} {path : Path} :
    p.pickStmt stmt = .ok path → path.length < 1 → Overflows p (.fissionAfter stmt lifts)
  /-- The last statement before a cut, which has statements behind it, is numbered. -/
  | cut {stmt : String} {lifts i : Nat} {body : Block} :
    (body.drop (i + 1)).isEmpty = false → (body.take (i + 1)).length < 1 →
    Overflows p (.fissionAfter stmt lifts)
  /-- The last round of a loop is numbered. -/
  | lastRound {rs : Ranges} {l : Enclosing} {n : Word} :
    rs.Met p.sizes → l ∈ rs.loops → l.2 = some n → Word.sub? n 1 = none → Overflows p .simplify

/-- An imperfect split by a positive factor, with new names, of a loop with a literal bound so large
that their sum is no word. -/
def Step.RoundsBeyond (p : Proc) (s : Step) : Prop :=
  ∃ loop f outer inner path h body n, s = .split loop f outer inner false ∧ 0 < f ∧
    p.pickLoop loop = .ok (path, h, body) ∧ outer ≠ inner ∧ outer ∉ p.boundNames ∧
    inner ∉ p.boundNames ∧ h.bound = .int n ∧ 9223372036854775807 < n.toInt + f.toInt

namespace Proc

variable {p : Proc} {loop outer inner : String} {f n : Word}

theorem roundUp_eq_none (hf : 0 < f) :
    (Word.add? n f).bind (Word.sub? · 1) = none ↔ 9223372036854775807 < n.toInt + f.toInt := by
  have hf' : 0 < f.toInt := Int64.lt_iff_toInt_lt.1 hf
  have hn := n.toInt_mem
  cases hsum : Word.add? n f with
  | none =>
    have hsum := Word.ofInt?_eq_none.1 hsum
    simp only [Option.bind_none, true_iff]
    omega
  | some m =>
    have hm := Word.ofInt?_eq_some.1 hsum
    have hmem := m.toInt_mem
    have hone : (1 : Word).toInt = 1 := rfl
    rw [Option.bind_some, Word.sub?, Word.ofInt?_eq_none]
    omega

theorem refusable_ne_overflow {β : Type} (x : Except StepError β) :
    refusable x ≠ .error .overflow := by
  cases x <;> simp [refusable]

theorem bind_refusable_eq_overflow {β γ : Type} {x : Except StepError β}
    {g : β → Except StepFailure γ} : (refusable x >>= g) = .error .overflow ↔
      ∃ b, x = .ok b ∧ g b = .error .overflow := by
  cases x <;> simp [refusable, bind, Except.bind]

theorem roundedUp_eq_overflow {bound : Expr} (hf : 0 < f) :
    roundedUp bound f = .error .overflow ↔
      ∃ n, bound = .int n ∧ 9223372036854775807 < n.toInt + f.toInt := by
  cases bound with
  | int n =>
    have hnone := roundUp_eq_none (n := n) hf
    rw [roundedUp]
    cases hsum : (Word.add? n f).bind (Word.sub? · 1) with
    | none | some m => simpa [Expr.int?, hsum] using hnone
  | _ => simp [roundedUp, Expr.int?]

theorem split_eq_overflow {perfect : Bool} :
    p.split loop f outer inner perfect = .error .overflow ↔
      (Step.split loop f outer inner perfect).RoundsBeyond p := by
  constructor
  · intro hsplit
    by_cases hf : f ≤ 0
    · simp only [split, hf, if_true] at hsplit
      cases hsplit
    simp only [split, hf, if_false] at hsplit
    obtain ⟨⟨path, h, body⟩, hpick, hsplit⟩ := bind_refusable_eq_overflow.1 hsplit
    by_cases hnames : outer = inner
    · rw [if_pos hnames] at hsplit
      cases hsplit
    rw [if_neg hnames] at hsplit
    obtain ⟨_, houter, hsplit⟩ := bind_refusable_eq_overflow.1 hsplit
    obtain ⟨_, hinner, hsplit⟩ := bind_refusable_eq_overflow.1 hsplit
    split at hsplit
    · split at hsplit
      · exact absurd hsplit (refusable_ne_overflow _)
      · cases hsplit
    next hperfect =>
      obtain hbound | ⟨_, -, hsplit⟩ := except_bind_eq_error.1 hsplit
      · obtain ⟨n, hn, hlt⟩ := (roundedUp_eq_overflow (Int64.not_le.1 hf)).1 hbound
        refine ⟨loop, f, outer, inner, path, h, body, n, ?_, Int64.not_le.1 hf, hpick, hnames,
          requireFresh_eq_ok.1 houter, requireFresh_eq_ok.1 hinner, hn, hlt⟩
        rw [Bool.eq_false_of_not_eq_true hperfect]
      · exact absurd hsplit (refusable_ne_overflow _)
  · rintro ⟨_, _, _, _, path, h, body, n, ⟨⟩, hf, hpick, hnames, houter, hinner, hn, hlt⟩
    simp only [split, Int64.not_le.2 hf, hpick, hnames, requireFresh, List.contains_iff_mem, houter,
      hinner, if_false, refusable]
    show (roundedUp h.bound f >>= _) = _
    rw [(roundedUp_eq_overflow hf).2 ⟨n, hn, hlt⟩]
    rfl

theorem replaceRounds_ne_overflow (t : Proc) (n : Nat) (any : Bool) (p : Proc) :
    replaceRounds t n any p ≠ .error .overflow := by
  induction n generalizing any p with
  | zero =>
    rw [replaceRounds]
    split <;> simp
  | succ n ih =>
    rw [replaceRounds]
    split
    · simp
    · intro h
      obtain ⟨q, -, h⟩ := bind_refusable_eq_overflow.1 h
      exact ih true q h

end Proc

namespace Step

variable (c : Catalog) (p : Proc) (s : Step)

theorem apply_eq_overflow : s.apply c p = .error .overflow ↔ s.RoundsBeyond p := by
  cases s with
  | split => exact Proc.split_eq_overflow
  | rename => simp [apply, RoundsBeyond]
  | replaceAll template =>
    simp only [RoundsBeyond, reduceCtorEq, false_and, exists_false, iff_false]
    intro h
    obtain ⟨t, -, h⟩ := Proc.bind_refusable_eq_overflow.1 h
    obtain h | ⟨⟨q, any⟩, -, h⟩ := except_bind_eq_error.1 h
    · exact Proc.replaceRounds_ne_overflow _ _ _ _ h
    · dsimp only at h
      split at h
      · exact Proc.refusable_ne_overflow _ h
      · cases h
  | simplify =>
    simp only [RoundsBeyond, reduceCtorEq, false_and, exists_false, iff_false, apply]
    split <;> simp
  | _ =>
    simp only [RoundsBeyond, reduceCtorEq, false_and, exists_false, iff_false]
    exact Proc.refusable_ne_overflow _

end Step

end LoopNest
