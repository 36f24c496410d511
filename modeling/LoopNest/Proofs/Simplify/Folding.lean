import LoopNest.Proofs.IndexValue
import LoopNest.Step.Simplify

/-!
# What constants are folded to

`Folds` lists what folding an operation can do. What folding keeps (values, affine forms, scopes) is
shown case by case over this list, without a look at the order of the tests.
-/

namespace LoopNest.Expr

variable {n : Word} {e : Expr}

theorem int?_eq_some : e.int? = some n ↔ e = .int n := by
  cases e <;> simp [int?]

/-- What an operation on operands that are folded becomes. -/
inductive Folds : Expr → Expr → Prop
  | kept {e : Expr} : Folds e e
  | literals {op : Op} {x y n : Word} :
    op.onWords? x y = some n → Folds (.binary op (.int x) (.int y)) (.int n)
  | zero_add {r : Expr} : Folds (.binary .add (.int 0) r) r
  | add_zero {l : Expr} : Folds (.binary .add l (.int 0)) l
  | sub_zero {l : Expr} : Folds (.binary .sub l (.int 0)) l
  | one_mul {r : Expr} : Folds (.binary .mul (.int 1) r) r
  | mul_one {l : Expr} : Folds (.binary .mul l (.int 1)) l
  | zero_mul {r : Expr} : Folds (.binary .mul (.int 0) r) (.int 0)
  | mul_zero {l : Expr} : Folds (.binary .mul l (.int 0)) (.int 0)
  | div_one {l : Expr} : Folds (.binary .div l (.int 1)) l
  | mod_one {l : Expr} : Folds (.binary .mod l (.int 1)) (.int 0)
  | literal {n m : Word} : Word.neg? n = some m → Folds (.neg (.int n)) (.int m)
  | neg_neg {e : Expr} : Folds (.neg (.neg e)) e

theorem folds_foldBinary (op : Op) (l r : Expr) : Folds (.binary op l r) (foldBinary op l r) := by
  have hlit : ∀ {e : Expr} {k : Word}, (e.int? == some k) = true → e = .int k :=
    fun h => int?_eq_some.1 (beq_iff_eq.1 h)
  unfold foldBinary
  simp only
  split
  next n hn =>
    -- only literals have a result
    cases hl : l.int? with
    | none => cases op <;> simp [hl] at hn
    | some x =>
      cases hr : r.int? with
      | none => cases op <;> simp [hr] at hn
      | some y =>
        rw [hl, hr] at hn
        rw [int?_eq_some.1 hl, int?_eq_some.1 hr]
        exact .literals (by cases op <;> exact hn)
  · cases op with
    | add =>
      simp only
      split_ifs with h h
      · exact hlit h ▸ .zero_add
      · exact hlit h ▸ .add_zero
      · exact .kept
    | sub =>
      simp only
      split_ifs with h
      · exact hlit h ▸ .sub_zero
      · exact .kept
    | mul =>
      simp only
      split_ifs with h h h
      · exact hlit h ▸ .one_mul
      · exact hlit h ▸ .mul_one
      · obtain h | h := Bool.or_eq_true_iff.1 h
        · exact hlit h ▸ .zero_mul
        · rw [hlit h]
          exact .mul_zero
      · exact .kept
    | div =>
      simp only
      split_ifs with h
      · exact hlit h ▸ .div_one
      · exact .kept
    | mod =>
      simp only
      split_ifs with h
      · exact hlit h ▸ .mod_one
      · exact .kept
    | _ => exact .kept

theorem folds_neg (e : Expr) : Folds (.neg e.fold) (Expr.neg e).fold := by
  rw [fold]
  split
  next n hn =>
    rw [hn]
    split
    next m hm => exact .literal hm
    · exact .kept
  next inner hn => exact hn ▸ .neg_neg
  · exact .kept

end LoopNest.Expr
