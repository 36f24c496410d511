import LoopNest.Proofs.AffineForm
import LoopNest.Validity

/-!
# Constant extents survive rewriting

The extent of an interval is constant if the difference of its bounds is, as an affine form. What the
steps do to the bounds keeps the extent: putting expressions in the place of variables, as long as
the new bounds still have a form (`Scope.extent?_rebuild`), and simplification, after which they
always have one (`Scope.extent?_simplified`).
-/

namespace LoopNest

open LoopNest.Affine

variable {lo hi : Expr}

/-- The difference of the bounds of an interval, as a form. -/
def Scope.extentForm? (lo hi : Expr) : Option Affine := do
  let h ← Affine.ofExpr? hi
  let l ← Affine.ofExpr? lo
  h.sub? l

theorem Scope.extent?_eq (lo hi : Expr) : extent? lo hi = (extentForm? lo hi).bind (·.constant?) := by
  simp only [extent?, extentForm?, Option.bind_eq_bind, Option.bind_assoc]

theorem Scope.extentForm?_eq_some {d : Affine} :
    extentForm? lo hi = some d ↔
      ∃ h l, Affine.ofExpr? hi = some h ∧ Affine.ofExpr? lo = some l ∧ h.sub? l = some d := by
  simp only [extentForm?, option_bind_eq_some, exists_and_left]

namespace Affine

variable {onVar : String → Expr} {onRead : String → List Expr → Expr}

/-- Where variables are replaced by expressions with forms, the form of the result has the value that
the old form has at the values of the new expressions. -/
theorem value_rebuild {e : Expr} {a a' : Affine} {σ τ : String → Int} (ha : ofExpr? e = some a)
    (ha' : ofExpr? (e.rebuild onVar onRead) = some a')
    (hvar : ∀ v b, ofExpr? (onVar v) = some b → b.value σ = τ v) : a'.value σ = a.value τ := by
  induction e generalizing a a' with
  | var v =>
    cases ha
    rw [hvar v a' ha', value_ofVar]
  | int n =>
    cases ha
    cases ha'
    rw [value_ofWord, value_ofWord]
  | neg e ih =>
    rw [Expr.rebuild] at ha'
    obtain ⟨b, hb, ha⟩ := ofExpr?_neg.1 ha
    obtain ⟨b', hb', ha'⟩ := ofExpr?_neg.1 ha'
    rw [(scale?_eq_some ha).2, (scale?_eq_some ha').2, ih hb hb']
  | binary op l r ihl ihr =>
    rw [Expr.rebuild] at ha'
    obtain ⟨b, c, hb, hc, ha⟩ := ofExpr?_binary.1 ha
    obtain ⟨b', c', hb', hc', ha'⟩ := ofExpr?_binary.1 ha'
    have hvalue := ha'.value σ
    rw [ihl hb hb', ihr hc hc', ha.value τ] at hvalue
    exact (Option.some.inj hvalue).symm
  | float x | read b idx => simp [ofExpr?] at ha

/-- Replacing reads by what has no form either changes no form. -/
theorem ofExpr?_rebuild_var (hread : ∀ b idx, ofExpr? (onRead b idx) = none) (e : Expr) :
    ofExpr? (e.rebuild .var onRead) = ofExpr? e := by
  induction e with
  | var v | int n | float x => rfl
  | read b idx =>
    rw [Expr.rebuild, hread]
    rfl
  | neg e ih =>
    rw [Expr.rebuild]
    simp only [ofExpr?, ih]
  | binary op l r ihl ihr =>
    rw [Expr.rebuild]
    cases op <;> simp only [ofExpr?, ihl, ihr]

end Affine

/-- **Extents survive substitution**, as long as the new bounds have a difference. -/
theorem Scope.extent?_rebuild {onVar : String → Expr} {onRead : String → List Expr → Expr}
    {n : Word} (h : extent? lo hi = some n)
    (hform : (extentForm? (lo.rebuild onVar onRead) (hi.rebuild onVar onRead)).isSome) :
    extent? (lo.rebuild onVar onRead) (hi.rebuild onVar onRead) = some n := by
  rw [extent?_eq, Option.bind_eq_some_iff] at h
  obtain ⟨d, hd, hn⟩ := h
  obtain ⟨fh, fl, hh, hl, hd⟩ := extentForm?_eq_some.1 hd
  obtain ⟨d', hd'⟩ := Option.isSome_iff_exists.1 hform
  obtain ⟨fh', fl', hh', hl', hsub⟩ := extentForm?_eq_some.1 hd'
  rw [extent?_eq, hd', Option.bind_some]
  refine constant?_of_value ((sub?_eq_some hsub).1 (ofExpr?_nodup hh').1) fun σ => ?_
  -- the values of what stands in the place of the variables
  let τ : String → Int := fun v => ((Affine.ofExpr? (onVar v)).map (·.value σ)).getD 0
  have hvar : ∀ v b, Affine.ofExpr? (onVar v) = some b → b.value σ = τ v := by
    intro v b hb
    simp only [τ, hb, Option.map_some, Option.getD_some]
  calc d'.value σ = fh'.value σ - fl'.value σ := (sub?_eq_some hsub).2.2 σ
    _ = fh.value τ - fl.value τ := by
      rw [Affine.value_rebuild hh hh' hvar, Affine.value_rebuild hl hl' hvar]
    _ = d.value τ := ((sub?_eq_some hd).2.2 τ).symm
    _ = n.toInt := value_of_constant? hn τ

/-- **Extents survive simplification.** -/
theorem Scope.extent?_simplified {n : Word} (zeros : List String) (h : extent? lo hi = some n) :
    extent? (lo.zeroVars zeros).simplifyIndex (hi.zeroVars zeros).simplifyIndex = some n := by
  rw [extent?_eq, Option.bind_eq_some_iff] at h ⊢
  obtain ⟨d, hd, hn⟩ := h
  obtain ⟨fh, fl, hh, hl, hsub⟩ := extentForm?_eq_some.1 hd
  refine ⟨d.restrict zeros, extentForm?_eq_some.2 ⟨_, _, ?_, ?_, sub?_restrict hsub⟩,
    constant?_restrict hn⟩
  · exact ofExpr?_simplifyIndex (ofExpr?_zeroVars hh)
  · exact ofExpr?_simplifyIndex (ofExpr?_zeroVars hl)

end LoopNest
