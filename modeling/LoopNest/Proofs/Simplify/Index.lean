import LoopNest.Proofs.AffineValue
import LoopNest.Proofs.Simplify.Folding
import LoopNest.Proofs.Trace.OfRun
import LoopNest.Proofs.Trace.Rewrite

/-!
# Simplified expressions have the same values

Folding, the affine normal form and the replacement of variables by 0 keep the unbounded value of an
index expression (`Expr.wide?_simplifyIndex`, `Env.Zeroed.wide?_zeroVars`). They do not keep the
machine's value: a normal form may overflow on the way where the old expression did not.
-/

namespace LoopNest

open Evaluator

variable {n : Word} {x : String}

/-! ## Folding -/

namespace Expr

variable {env : Env} {e l r : Expr} {z : Int}

theorem wide?_of_int? (h : e.int? = some n) : env.wide? e = some n.toInt := by
  rw [int?_eq_some.1 h]
  rfl

theorem Folds.wide? {e' : Expr} (hf : Folds e e') (h : env.wide? e = some z) :
    env.wide? e' = some z := by
  cases hf with
  | kept => exact h
  | literals hn =>
    obtain ⟨_, _, ⟨⟩, ⟨⟩, hz⟩ := Env.wide?_binary_eq_some.1 h
    exact (Op.onInts?_of_onWords? hn).symm.trans hz
  | zero_add | one_mul =>
    obtain ⟨_, y, ⟨⟩, hy, ⟨⟩⟩ := Env.wide?_binary_eq_some.1 h
    simpa using hy
  | add_zero | sub_zero | mul_one =>
    obtain ⟨x, _, hx, ⟨⟩, ⟨⟩⟩ := Env.wide?_binary_eq_some.1 h
    simpa using hx
  | zero_mul =>
    obtain ⟨_, y, ⟨⟩, -, ⟨⟩⟩ := Env.wide?_binary_eq_some.1 h
    simp [Env.wide?]
  | mul_zero =>
    obtain ⟨x, _, -, ⟨⟩, ⟨⟩⟩ := Env.wide?_binary_eq_some.1 h
    simp [Env.wide?]
  | div_one =>
    obtain ⟨x, _, hx, ⟨⟩, hz⟩ := Env.wide?_binary_eq_some.1 h
    obtain ⟨-, rfl, -⟩ := Op.quotient?_eq_some.1 hz
    simpa using hx
  | mod_one =>
    obtain ⟨x, _, -, ⟨⟩, hz⟩ := Env.wide?_binary_eq_some.1 h
    obtain ⟨q, -, rfl⟩ := Option.map_eq_some_iff.1 hz
    simp [Env.wide?]
  | literal hm =>
    obtain ⟨_, ⟨⟩, rfl⟩ := Env.wide?_neg_eq_some.1 h
    rw [← Word.neg?_eq_some.1 hm]
    rfl
  | neg_neg =>
    obtain ⟨_, hneg, rfl⟩ := Env.wide?_neg_eq_some.1 h
    obtain ⟨x, hx, rfl⟩ := Env.wide?_neg_eq_some.1 hneg
    rw [hx, Int.neg_neg]

/-- **Folding keeps the value.** -/
theorem wide?_fold (h : env.wide? e = some z) : env.wide? e.fold = some z := by
  induction e generalizing z with
  | binary op l r ihl ihr =>
    obtain ⟨x, y, hx, hy, hz⟩ := Env.wide?_binary_eq_some.1 h
    exact (folds_foldBinary ..).wide? (Env.wide?_binary_eq_some.2 ⟨x, y, ihl hx, ihr hy, hz⟩)
  | neg e ih =>
    obtain ⟨x, hx, hz⟩ := Env.wide?_neg_eq_some.1 h
    exact (folds_neg e).wide? (Env.wide?_neg_eq_some.2 ⟨x, ih hx, hz⟩)
  | var v | int n | float x | read b idx => exact h

/-- **The normal form keeps the value.** -/
theorem wide?_simplifyIndex (h : env.wide? e = some z) : env.wide? e.simplifyIndex = some z := by
  have hfold := wide?_fold h
  unfold simplifyIndex
  split
  next a ha =>
    have hvalued : ∀ v ∈ a.vars, (env.value? v).isSome := fun v hv =>
      Env.value?_isSome_of_wide? hfold v
        ((Affine.ofExpr?_nodup ha).2 v ((List.filter_sublist.map _).subset hv))
    rw [Affine.wide?_toExpr hvalued, Affine.ofExpr?_value ha hfold]
  · exact hfold

end Expr

/-! ## Variables that are 0 -/

/-- The environments have the same bindings but for the names in `zeros`, which stand for 0 in the
first and are unbound in the second. -/
structure Env.Zeroed (zeros : List String) (env env' : Env) : Prop where
  same : ∀ x ∉ zeros, env'.lookup x = env.lookup x
  zero : ∀ x ∈ zeros, env.lookup x = some (.index 0)
  gone : ∀ x ∈ zeros, env'.lookup x = none

namespace Expr

theorem zeroVars_read (zeros : List String) (b : String) (idx : List Expr) :
    (read b idx).zeroVars zeros = read b (idx.map (·.zeroVars zeros)) := by
  rw [zeroVars, rebuild, rebuildAll_eq_map]

end Expr

namespace Env.Zeroed

variable {zeros : List String} {env env' : Env}

variable (h : env.Zeroed zeros env')
include h

theorem value?_eq (hx : x ∉ zeros) : env'.value? x = env.value? x := by
  simp only [value?, h.same x hx]

theorem value?_zero (hx : x ∈ zeros) : env.value? x = some 0 := by
  simp only [value?, h.zero x hx]

theorem view?_eq (x : String) : env'.view? x = env.view? x := by
  by_cases hx : x ∈ zeros
  · simp only [view?, h.zero x hx, h.gone x hx]
  · simp only [view?, h.same x hx]

theorem bind (hx : x ∉ zeros) (b : Binding) : Env.Zeroed zeros (env.bind x b) (env'.bind x b)  where
  same y hy := by rw [lookup_bind, lookup_bind, h.same y hy]
  zero y hy := by
    have hne : y ≠ x := fun h => hx (h ▸ hy)
    rw [lookup_bind, if_neg hne, h.zero y hy]
  gone y hy := by
    have hne : y ≠ x := fun h => hx (h ▸ hy)
    rw [lookup_bind, if_neg hne, h.gone y hy]

theorem wide?_zeroVars {e : Expr} {z : Int} (he : env.wide? e = some z) :
    env'.wide? (e.zeroVars zeros) = some z := by
  induction e generalizing z with
  | var v =>
    simp only [wide?, Option.map_eq_some_iff] at he
    obtain ⟨n, hn, rfl⟩ := he
    rw [Expr.zeroVars, Expr.rebuild]
    by_cases hv : v ∈ zeros
    · rw [h.value?_zero hv] at hn
      cases hn
      rw [if_pos (List.contains_iff_mem.2 hv)]
      rfl
    · rw [if_neg fun hc => hv (List.contains_iff_mem.1 hc), wide?, h.value?_eq hv, hn]
      rfl
  | int n => exact he
  | binary op l r ihl ihr =>
    obtain ⟨x, y, hx, hy, hz⟩ := wide?_binary_eq_some.1 he
    exact wide?_binary_eq_some.2 ⟨x, y, ihl hx, ihr hy, hz⟩
  | neg e ih =>
    obtain ⟨x, hx, hz⟩ := wide?_neg_eq_some.1 he
    exact wide?_neg_eq_some.2 ⟨x, ih hx, hz⟩
  | float x | read b idx => cases he

/-- The rewriting of index expressions in one round. -/
theorem keeps :
    wide.Keeps env env' fun e => (e.zeroVars zeros).simplifyIndex := fun _ _ he =>
  wide_eval.2 (Expr.wide?_simplifyIndex (h.wide?_zeroVars (wide_eval.1 he)))

theorem condition {e : Expr} {t : Bool} (he : wide.condition env e = some t) :
    wide.condition env' (e.zeroVars zeros).simplifyCondition = some t := by
  fun_induction wide.condition env e generalizing t with
  | case1 l r ihl ihr =>
    simp only [option_bind_eq_some] at he
    obtain ⟨b, hb, he⟩ := he
    rw [Expr.zeroVars, Expr.rebuild, Expr.simplifyCondition, Evaluator.condition]
    simp only [option_bind_eq_some]
    refine ⟨b, ihl hb, ?_⟩
    cases b with
    | false => exact he
    | true => exact ihr he
  | case2 op l r hop =>
    simp only [option_bind_eq_some] at he
    obtain ⟨x, hx, y, hy, he⟩ := he
    have hcomp : op.isComparison = true := by
      cases op <;> first | rfl | cases he
    rw [Expr.zeroVars, Expr.rebuild, Expr.simplifyCondition.eq_2 _ _ _ hop, if_pos hcomp,
      Evaluator.condition.eq_2 _ _ _ _ _ hop]
    simp only [option_bind_eq_some]
    exact ⟨x, h.keeps l x hx, y, h.keeps r y hy, he⟩
  | case3 e h1 h2 => cases he

/-- Data expressions compute the same term. -/
theorem term {lay : Layout} {e : Expr} {t : Term} (he : wide.term env lay e = some t) :
    wide.term env' lay (e.zeroVars zeros).simplifyData = some t := by
  induction e generalizing t with
  | var v =>
    obtain ⟨n, hn, rfl⟩ := term_var.1 he
    rw [Expr.zeroVars, Expr.rebuild]
    by_cases hv : v ∈ zeros
    · rw [h.value?_zero hv] at hn
      cases hn
      rw [if_pos (List.contains_iff_mem.2 hv)]
      rfl
    · rw [if_neg fun hc => hv (List.contains_iff_mem.1 hc)]
      simp only [Expr.simplifyData, Evaluator.term, h.value?_eq hv, hn, Option.map_some]
  | int n | float x => exact he
  | read b idx =>
    obtain ⟨p, hp, rfl⟩ := term_read.1 he
    rw [Expr.zeroVars_read, Expr.simplifyData, List.map_map]
    exact term_read.2 ⟨p, h.keeps.load h.view?_eq hp, rfl⟩
  | binary op l r ihl ihr =>
    obtain ⟨hop, tl, tr, hl, hr, he⟩ := term_binary.1 he
    exact term_binary.2 ⟨hop, tl, tr, ihl hl, ihr hr, he⟩
  | neg e ih =>
    obtain ⟨u, hu, he⟩ := term_neg.1 he
    exact term_neg.2 ⟨u, ih hu, he⟩

end Env.Zeroed

end LoopNest
