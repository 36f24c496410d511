import LoopNest.Proofs.Matching.Aligned
import LoopNest.Proofs.Matching.Outcome
import LoopNest.Proofs.Scoping

/-!
# Index expressions of aligned code

While a template and code that is aligned with it run side by side, a template variable has the value
of the code variable it is renamed to, and nothing else has changed around them (`Relates`). Index
expressions that match then have the same value, conditions come out the same way, and a code index
is the template index plus an offset that can be evaluated outside.
-/

namespace LoopNest

open Scope LoopNest.Affine

variable {env env' : Env} {e e' : Expr}

/-- Two index expressions with the same unbounded value. -/
theorem Env.agrees_of_wide? {z : Int} (h : env.wide? e = some z) (h' : env'.wide? e' = some z) :
    Agrees Eq (env.index e) (env'.index e') := by
  rcases index_of_wide? h with ⟨n, rfl, hn⟩ | ho
  · rcases index_of_wide? h' with ⟨m, hm, hm'⟩ | ho
    · rw [hn, hm', Int64.toInt_inj.1 hm]
      exact .ok rfl
    · exact .inr (.inr ho)
  · exact .inr (.inl ho)

theorem Env.index_binary_agrees {l r l' r' : Expr} (op : Op)
    (hl : Agrees Eq (env.index l) (env'.index l')) (hr : Agrees Eq (env.index r) (env'.index r')) :
    Agrees Eq (env.index (.binary op l r)) (env'.index (.binary op l' r')) := by
  simp only [Env.index]
  refine hl.bind fun x _ _ _ hx => ?_
  subst hx
  refine hr.bind fun y _ _ _ hy => ?_
  subst hy
  cases op with
  | div => cases Word.div? x y with
    | none => exact .fail rfl
    | some q => exact .ok rfl
  | mod => cases Word.mod? x y with
    | none => exact .fail rfl
    | some q => exact .ok rfl
  | add | sub | mul => exact .refl _
  | _ => exact .fail rfl

theorem Env.compare_agrees {l r l' r' : Expr} {op : Op} (hop : op.isComparison = true)
    (hl : Agrees Eq (env.index l) (env'.index l')) (hr : Agrees Eq (env.index r) (env'.index r')) :
    Agrees Eq (env.condition (.binary op l r)) (env'.condition (.binary op l' r')) := by
  have hsides : ∀ f : Word → Word → Bool,
      Agrees Eq (do let x ← env.index l; let y ← env.index r; return f x y)
        (do let x ← env'.index l'; let y ← env'.index r'; return f x y) := by
    intro f
    refine hl.bind fun x _ _ _ hx => ?_
    subst hx
    refine hr.bind fun y _ _ _ hy => ?_
    subst hy
    exact .ok rfl
  cases op with
  | lt | le | gt | ge | eq => exact hsides _
  | _ => cases hop

namespace Matching

/-- The environments of a template and of the code that is aligned with it, and what surrounds
them. -/
structure Relates (ρ : Renaming) (inner outer : Env) (tsc csc : Scope) (tenv cenv : Env) :
    Prop where
  template : tenv.Fits tsc
  code : cenv.Fits csc
  value : ∀ v, tsc.isIndex v = true → ∃ w, ρ.lookup v = some w ∧ cenv.value? w = tenv.value? v
  outside : ∀ x, x ∉ ρ.map (·.2) → cenv.value? x = outer.value? x
  templateView : ∀ x, tenv.view? x = inner.view? x
  codeView : ∀ x, cenv.view? x = outer.view? x

namespace Relates

variable {ρ : Renaming} {inner outer tenv cenv : Env} {tsc csc : Scope}

/-- The next round of loops that correspond. -/
theorem bind (h : Relates ρ inner outer tsc csc tenv cenv) {v w : String}
    (hv : tsc.isVisible v = false) (hw : csc.isVisible w = false) (n : Word) :
    Relates ((v, w) :: ρ) inner outer (tsc.addVar v) (csc.addVar w) (tenv.bind v (.index n))
      (cenv.bind w (.index n)) where
  template := h.template.bind_var v n
  code := h.code.bind_var w n
  value x hx := by
    by_cases hxv : x = v
    · subst hxv
      exact ⟨w, by simp, by simp [Env.value?_bind]⟩
    · obtain ⟨y, hy, heq⟩ := h.value x (((tsc.isIndex_addVar v x).1 hx).resolve_left hxv)
      refine ⟨y, ?_, ?_⟩
      · rw [List.lookup_cons, beq_eq_false_iff_ne.2 hxv]
        exact hy
      · -- the new variable is not visible, and `y` has a value
        have hyw : y ≠ w := by
          rintro rfl
          have hindex := ((tsc.isIndex_addVar v x).1 hx).resolve_left hxv
          obtain ⟨k, hk⟩ := Option.isSome_iff_exists.1 (h.template.value x hindex)
          rw [hk, Env.value?_eq_some, h.code.lookup_eq_none hw] at heq
          cases heq
        rw [Env.value?_bind, if_neg hyw, Env.value?_bind, if_neg hxv, heq]
  outside x hx := by
    rw [List.map_cons, List.mem_cons, not_or] at hx
    rw [Env.value?_bind, if_neg hx.1, h.outside x hx.2]
  templateView x := by
    rw [Env.view?_bind_new (h.template.lookup_eq_none hv), h.templateView]
  codeView x := by
    rw [Env.view?_bind_new (h.code.lookup_eq_none hw), h.codeView]

variable {c t : Expr}

section

variable (h : Relates ρ inner outer tsc csc tenv cenv)
include h

theorem valued (hc : csc.checkIndex c = []) : ∀ v ∈ c.vars, (cenv.value? v).isSome :=
  fun v hv => h.code.value v (isIndex_of_checkIndex hc v hv)

/-! ## Expressions of the template -/

theorem wide?_renamed (ht : ∀ v ∈ t.vars, tsc.isIndex v = true) :
    cenv.wide? (renamed ρ t) = tenv.wide? t := by
  induction t with
  | var v =>
    obtain ⟨w, hw, heq⟩ := h.value v (ht v (by simp))
    simp [renamed, Expr.rebuild, hw, Env.wide?, heq]
  | int n | float x | read b idx => rfl
  | binary op l r ihl ihr =>
    have hl := ihl fun v hv => ht v (by simp [hv])
    have hr := ihr fun v hv => ht v (by simp [hv])
    simp only [renamed, Expr.rebuild, Env.wide?] at hl hr ⊢
    rw [hl, hr]
  | neg e ih =>
    have he := ih fun v hv => ht v (by simpa using hv)
    simp only [renamed, Expr.rebuild, Env.wide?] at he ⊢
    rw [he]

theorem index_renamed (ht : tsc.checkIndex t = []) :
    Agrees Eq (tenv.index t) (cenv.index (renamed ρ t)) := by
  induction t with
  | var v =>
    have hindex := isIndex_of_checkIndex ht v (by simp)
    obtain ⟨w, hw, heq⟩ := h.value v hindex
    obtain ⟨n, hn⟩ := Option.isSome_iff_exists.1 (h.template.value v hindex)
    have hcode : renamed ρ (.var v) = .var w := by simp [renamed, Expr.rebuild, hw]
    rw [hcode, Env.index_var_eq_ok.2 hn, Env.index_var_eq_ok.2 (heq.trans hn)]
    exact .ok rfl
  | int n => exact .ok rfl
  | float x | read b idx => cases ht
  | binary op l r ihl ihr =>
    obtain ⟨-, hl, hr⟩ := checkIndex_binary.1 ht
    exact Env.index_binary_agrees op (ihl hl) (ihr hr)
  | neg e ih =>
    refine (ih ht).bind fun x _ _ _ hx => ?_
    subst hx
    exact .refl _

theorem valued_renamed (ht : tsc.checkIndex t = []) :
    ∀ w ∈ (renamed ρ t).vars, (cenv.value? w).isSome := by
  induction t with
  | var v =>
    have hindex := isIndex_of_checkIndex ht v (by simp)
    obtain ⟨w, hw, heq⟩ := h.value v hindex
    intro x hx
    obtain rfl : x = w := by simpa [renamed, Expr.rebuild, hw] using hx
    rw [heq]
    exact h.template.value v hindex
  | int n => simp [renamed, Expr.rebuild]
  | float x | read b idx => cases ht
  | binary op l r ihl ihr =>
    obtain ⟨-, hl, hr⟩ := checkIndex_binary.1 ht
    intro w hw
    simp only [renamed, Expr.rebuild, Expr.vars_binary, List.mem_append] at hw
    exact hw.elim (ihl hl w) (ihr hr w)
  | neg e ih =>
    intro w hw
    simp only [renamed, Expr.rebuild, Expr.vars_neg] at hw
    exact ih ht w hw

/-! ## Expressions that match -/

/-- **Index expressions that match agree.** Two affine forms that are the same have the same value;
what is not affine has to be equal. -/
theorem index_agrees (ht : tsc.checkIndex t = []) (hc : csc.checkIndex c = [])
    (hsame : (renamed ρ t).sameIndex c = true) : Agrees Eq (tenv.index t) (cenv.index c) := by
  unfold Expr.sameIndex at hsame
  split at hsame
  next ta ca hta hca =>
    have htemplate := wide?_of_ofExpr? hta (h.valued_renamed ht)
    rw [h.wide?_renamed (isIndex_of_checkIndex ht), value_of_same hsame] at htemplate
    exact Env.agrees_of_wide? htemplate (wide?_of_ofExpr? hca (h.valued hc))
  · rw [← eq_of_same hc hsame]
    exact h.index_renamed ht

end

theorem sameIndex_of_aligned (ht : tsc.checkIndex t = []) (h : ConditionAligned ρ t c) :
    (renamed ρ t).sameIndex c = true := by
  cases h with
  | node ho _ _ =>
    obtain ⟨harith, -⟩ := checkIndex_binary.1 ht
    rw [ho] at harith
    cases harith
  | leaf _ hsame => exact hsame

variable (h : Relates ρ inner outer tsc csc tenv cenv)
include h

/-- **Conditions that match come out the same way.** -/
theorem condition_agrees (ht : tsc.checkCondition t = []) (hc : csc.checkCondition c = [])
    (hal : ConditionAligned ρ t c) : Agrees Eq (tenv.condition t) (cenv.condition c) := by
  induction hal with
  | node _ hl hr ihl ihr =>
    obtain ⟨_, _, heq, htl, htr⟩ | ⟨_, _, _, heq, hop, htl, htr⟩ := of_checkCondition ht
    · cases heq
      obtain ⟨_, _, heq, hcl, hcr⟩ | ⟨_, _, _, heq, hop, _⟩ := of_checkCondition hc
      · cases heq
        simp only [Env.condition]
        refine (ihl htl hcl).bind fun b _ _ _ hb => ?_
        subst hb
        cases b with
        | true => exact ihr htr hcr
        | false => exact .ok rfl
      · cases heq
        cases hop
    · cases heq
      obtain ⟨_, _, heq, _⟩ | ⟨_, _, _, heq, _, hcl, hcr⟩ := of_checkCondition hc
      · cases heq
        cases hop
      · cases heq
        exact Env.compare_agrees hop (h.index_agrees htl hcl (sameIndex_of_aligned htl hl))
          (h.index_agrees htr hcr (sameIndex_of_aligned htr hr))
  | leaf harith _ =>
    obtain ⟨l, r, rfl, _⟩ | ⟨op, l, r, rfl, hop, _⟩ := of_checkCondition ht
    · cases harith _ _ _ rfl
    · have harith := harith _ _ _ rfl
      cases op <;> cases hop <;> cases harith

/-- A loop of the code runs as often as the template's. -/
theorem bound_agrees {n : Word} (he : e.int? = some n) (he' : e'.constant? = some n)
    (hc : csc.checkIndex e' = []) : Agrees Eq (tenv.index e) (cenv.index e') := by
  have htemplate : tenv.wide? e = some n.toInt := by
    cases e with
    | int k =>
      cases he
      rfl
    | _ => cases he
  obtain ⟨a, ha, hn⟩ := Option.bind_eq_some_iff.1 he'
  have hcode := wide?_of_ofExpr? ha (h.valued hc)
  rw [value_of_constant? hn] at hcode
  exact Env.agrees_of_wide? htemplate hcode

/-! ## Offsets -/

/-- The value of a code index that follows a template index. -/
theorem wide?_of_follows {lo : Affine} (ht : tsc.checkIndex t = []) (hc : csc.checkIndex c = [])
    (hlo : Follows ρ lo t c) :
    ∃ z, tenv.wide? t = some z ∧ cenv.wide? c = some (lo.value outer.valuation + z) := by
  obtain ⟨ta, ca, hta, hca, hsub, hfixed⟩ := hlo
  have htemplate := wide?_of_ofExpr? hta (h.valued_renamed ht)
  rw [h.wide?_renamed (isIndex_of_checkIndex ht)] at htemplate
  refine ⟨_, htemplate, ?_⟩
  obtain ⟨hnodup, -, hvalue⟩ := sub?_eq_some hsub
  -- the offset mentions none of the variables that differ from outside
  have hlo : lo.value outer.valuation = lo.value cenv.valuation := by
    refine value_congr (hnodup (ofExpr?_nodup hca).1) fun v hv => ?_
    have hout : v ∉ ρ.map (·.2) := fun hmem => by
      rw [hfixed v hmem] at hv
      cases hv
    rw [Env.valuation, Env.valuation, h.outside v hout]
  rw [wide?_of_ofExpr? hca (h.valued hc), hlo, hvalue, Int.sub_add_cancel]

/-- An expression without variables of the matched loops sees what is outside. -/
theorem value?_of_fixed (hfixed : ∀ v ∈ ρ.map (·.2), e.mentions v = false) {v : String}
    (hv : v ∈ e.vars) : cenv.value? v = outer.value? v := by
  refine h.outside v fun hmem => ?_
  have hnot := hfixed v hmem
  rw [Expr.mentions, List.contains_iff_mem.2 hv] at hnot
  cases hnot

/-- A leading index has the value of the window's point. -/
theorem index_of_point {p : Word} (hp : outer.index e = .ok p)
    (hsame : e = e' ∨ e.sameIndex e' = true) (hfixed : ∀ v ∈ ρ.map (·.2), e'.mentions v = false)
    (hc : csc.checkIndex e' = []) : cenv.index e' = .ok p ∨ cenv.index e' = .error .overflow := by
  have hout : ∀ v ∈ e'.vars, cenv.value? v = outer.value? v := fun _ => h.value?_of_fixed hfixed
  have hpoint := Env.wide?_of_index hp
  have hcode : cenv.wide? e' = some p.toInt := by
    rw [Env.wide?_congr hout]
    obtain rfl | hsame := hsame
    · exact hpoint
    · have hvalued : ∀ v ∈ e'.vars, (outer.value? v).isSome := fun v hv => by
        rw [← hout v hv]
        exact h.valued hc v hv
      rw [← Env.wide?_eq_of_sameIndex hsame (Env.value?_isSome_of_wide? hpoint) hvalued, hpoint]
  obtain ⟨n, hn, hok⟩ | ho := Env.index_of_wide? hcode
  · rw [hok, Int64.toInt_inj.1 hn]
    exact .inl rfl
  · exact .inr ho

end Relates

end Matching

end LoopNest
