import LoopNest.Proofs.AffineForm

/-!
# Affine forms are exact and canonical

The form of an index expression has the value that the machine computes, and so has the expression
that is built back from it (`Expr.affine_exact`). Whatever the operations on forms build
(`Affine.Obtainable`) names every variable once and with a coefficient that is not 0, is read back
from its own expression, and is equal to another form exactly if the two have the same value
everywhere (`Affine.Obtainable.canonical`).
-/

namespace LoopNest

namespace Affine

/-! ## Values by coefficients -/

theorem Normal.coeff_eq {a : Affine} (h : a.Normal) {t : String × Word} (ht : t ∈ a.terms) :
    a.coeff t.1 = t.2 := by
  rw [coeff, find?_of_nodup h.nodup ht]
  rfl

theorem Normal.value_eq {a : Affine} (h : a.Normal) (σ : String → Int) :
    a.value σ = a.constant.toInt + (a.vars.map fun v => (a.coeff v).toInt * σ v).sum := by
  rw [value, sumOf, vars, h.filter_terms, List.map_map]
  congr 2
  refine List.map_congr_left fun t ht => ?_
  rw [Function.comp_apply, h.coeff_eq ht]

end Affine

/-- **Affine views are sound.** The form of an expression has the value that the machine computes,
as the constant and the coefficients give it, and so has the canonical expression of the form, which
reads no other variables. Hence a constant expression has its constant as value, and expressions
that are the same index have the same value. -/
theorem Expr.affine_exact (e : Expr) :
    (∀ a, Affine.ofExpr? e = some a → ∀ v ∈ a.toExpr.vars, v ∈ e.vars) ∧
      ∀ (env : Env) (n : Word), env.index e = .ok n →
        (∀ a, Affine.ofExpr? e = some a →
          a.constant.toInt + (a.vars.map fun v => (a.coeff v).toInt * env.valuation v).sum =
            n.toInt ∧ env.wide? a.toExpr = some n.toInt) ∧
        (∀ k, e.constant? = some k → n = k) ∧
        ∀ e' n', e.sameIndex e' = true → env.index e' = .ok n' → n = n' := by
  have hvars : ∀ a, Affine.ofExpr? e = some a → ∀ v ∈ a.vars, v ∈ e.vars := by
    intro a ha v hv
    obtain ⟨t, ht, rfl⟩ := List.mem_map.1 hv
    exact (Affine.ofExpr?_nodup ha).2 _ (List.mem_map_of_mem (List.mem_filter.1 ht).1)
  refine ⟨fun a ha => a.vars_toExpr ▸ hvars a ha, fun env n hn => ?_⟩
  have hwide := Env.wide?_of_index hn
  refine ⟨fun a ha => ?_, fun k hk => ?_, fun e' n' hsame hn' => ?_⟩
  · have hvalue := Affine.ofExpr?_value ha hwide
    rw [← (Affine.ofExpr?_normal ha).value_eq, ← hvalue]
    exact ⟨rfl, Affine.wide?_toExpr fun v hv =>
      Env.value?_isSome_of_wide? hwide v (hvars a ha v hv)⟩
  · exact Int64.toInt_inj.1 (wide?_of_constant? hk hwide)
  · exact Int64.toInt_inj.1 (Env.wide?_of_sameIndex hsame hwide (Env.wide?_of_index hn'))

/-- `8 * io + ii - 4 * io`, which is the same index as `ii + 4 * io`. -/
theorem Expr.tiled_affine_exact :
    let tiled : Expr :=
      .sub (.add (.mul (.int 8) (.var "io")) (.var "ii")) (.mul (.int 4) (.var "io"))
    let merged : Expr := .add (.var "ii") (.mul (.int 4) (.var "io"))
    let env : Env := [("io", .index 3), ("ii", .index 2)]
    env.index tiled = .ok 14 ∧ env.index merged = .ok 14 ∧ tiled.sameIndex merged = true ∧
      ∃ a, Affine.ofExpr? tiled = some a ∧ env.wide? a.toExpr = some 14 := by
  intro tiled merged env
  have htiled : env.index tiled = .ok 14 := by rfl
  have hmerged : env.index merged = .ok 14 := by rfl
  have hsame : tiled.sameIndex merged = true := by decide +kernel
  obtain ⟨a, ha⟩ : ∃ a, Affine.ofExpr? tiled = some a := ⟨⟨[("io", 4), ("ii", 1)], 0⟩, by rfl⟩
  exact ⟨htiled, hmerged, hsame, a, ha, (((tiled.affine_exact).2 env 14 htiled).1 a ha).2⟩

namespace Affine

/-! ## Forms that can be built -/

/-- The forms that expressions have, and all that the operations build from them. -/
inductive Obtainable : Affine → Prop
  | ofExpr {e : Expr} {a : Affine} (h : ofExpr? e = some a) : Obtainable a
  | scale {a b : Affine} {k : Word} (ha : Obtainable a) (h : a.scale? k = some b) : Obtainable b
  | add {a b c : Affine} (ha : Obtainable a) (hb : Obtainable b) (h : a.add? b = some c) :
      Obtainable c
  | sub {a b c : Affine} (ha : Obtainable a) (hb : Obtainable b) (h : a.sub? b = some c) :
      Obtainable c
  | addConstant {a b : Affine} {k : Word} (ha : Obtainable a) (h : a.addConstant? k = some b) :
      Obtainable b
  | without {a : Affine} (ha : Obtainable a) (v : String) : Obtainable (a.without v)

variable {a : Affine} {l : List (String × Word)} {t : String × Word}

theorem Obtainable.normal (h : a.Obtainable) : a.Normal := by
  induction h with
  | ofExpr h => exact ofExpr?_normal h
  | scale _ h ih => exact ⟨ih.nodup.sublist (scale?_eq_some h).1, scale?_nonzero h⟩
  | add _ _ h ih _ => exact ⟨(add?_eq_some h).1 ih.nodup, add?_nonzero h⟩
  | sub _ _ h ih _ =>
    refine ⟨(sub?_eq_some h).1 ih.nodup, ?_⟩
    obtain ⟨m, -, h⟩ := Option.bind_eq_some_iff.1 h
    exact add?_nonzero h
  | addConstant _ h ih =>
    have hterms := (addConstant?_eq_some h).1
    exact ⟨hterms ▸ ih.nodup, hterms ▸ ih.nonzero⟩
  | without _ v ih =>
    exact ⟨ih.nodup.sublist (List.filter_sublist.map _),
      fun t ht => ih.nonzero t (List.mem_filter.1 ht).1⟩

/-! ## Adding coefficients up -/

/-- The coefficient of a variable as the sum of all its terms, with checked additions. -/
def summedCoeff? (v : String) (a : Affine) : Option Word :=
  ((a.terms.filter (·.1 = v)).map (·.2)).foldlM Word.add? 0

/-- Add a term to a list that is ordered by the names of the variables. -/
def gatherTerm? (t : String × Word) : List (String × Word) → Option (List (String × Word))
  | [] => do return [(t.1, ← Word.add? 0 t.2)]
  | u :: rest =>
    if t.1 < u.1 then do return (t.1, ← Word.add? 0 t.2) :: u :: rest
    else if t.1 = u.1 then do return (u.1, ← Word.add? u.2 t.2) :: rest
    else do return u :: (← gatherTerm? t rest)

/-- The coefficients of all variables as sums of their terms, with checked additions. -/
def gathered? (a : Affine) : Option (List (String × Word)) := do
  return (← a.terms.foldlM (fun l t => gatherTerm? t l) []).filter (·.2 != 0)

theorem filter_eq_find? (hnodup : (l.map (·.1)).Nodup) (v : String) :
    l.filter (·.1 = v) = (l.find? (·.1 = v)).toList := by
  induction l with
  | nil => rfl
  | cons t l ih =>
    obtain ⟨hnew, hnodup⟩ := List.nodup_cons.1 hnodup
    by_cases ht : t.1 = v
    · have hrest : l.filter (·.1 = v) = [] := by
        refine List.filter_eq_nil_iff.2 fun u hu heq => hnew ?_
        exact List.mem_map.2 ⟨u, hu, (of_decide_eq_true heq).trans ht.symm⟩
      simp [ht, hrest]
    · simp [ht, ih hnodup]

theorem Normal.summedCoeff?_eq (h : a.Normal) (v : String) :
    a.summedCoeff? v = some (a.coeff v) := by
  rw [summedCoeff?, coeff, filter_eq_find? h.nodup]
  cases a.terms.find? (·.1 = v) with
  | none => rfl
  | some t =>
    simp only [Option.toList_some, List.map_cons, List.map_nil, List.foldlM_cons, List.foldlM_nil,
      Word.zero_add?, Option.map_some, Option.getD_some]
    rfl

/-- Ordered by the names of the variables, of which none occurs twice. -/
def Ordered (l : List (String × Word)) : Prop := l.Pairwise fun t u => t.1 < u.1

theorem Ordered.eq_of_perm {l' : List (String × Word)} (h : Ordered l) (h' : Ordered l')
    (hperm : l.Perm l') : l = l' :=
  hperm.eq_of_pairwise (fun _ _ _ _ hlt hgt => absurd hgt (lt_asymm hlt)) h h'

theorem Ordered.insertTerm (h : Ordered l) (hnew : t.1 ∉ l.map (·.1)) :
    Ordered (insertTerm t l) := by
  induction l with
  | nil => exact List.pairwise_singleton _ _
  | cons u l ih =>
    obtain ⟨hu, hl⟩ := List.pairwise_cons.1 h
    rw [List.map_cons, List.mem_cons, not_or] at hnew
    rw [Affine.insertTerm]
    split
    next hlt =>
      refine List.pairwise_cons.2 ⟨fun s hs => ?_, h⟩
      obtain rfl | hs := List.mem_cons.1 hs
      · exact hlt
      · exact hlt.trans (hu s hs)
    next hlt =>
      refine List.pairwise_cons.2 ⟨fun s hs => ?_, ih hl hnew.2⟩
      obtain rfl | hs := List.mem_cons.1 ((insertTerm_perm t l).mem_iff.1 hs)
      · exact lt_of_le_of_ne (not_lt.1 hlt) (Ne.symm hnew.1)
      · exact hu s hs

theorem ordered_foldr_insertTerm (h : (l.map (·.1)).Nodup) :
    Ordered (l.foldr insertTerm []) ∧ (l.foldr insertTerm []).Perm l := by
  induction l with
  | nil => exact ⟨.nil, .refl _⟩
  | cons t l ih =>
    obtain ⟨hnew, hnodup⟩ := List.nodup_cons.1 h
    obtain ⟨hordered, hperm⟩ := ih hnodup
    exact ⟨hordered.insertTerm fun hmem => hnew ((hperm.map _).mem_iff.1 hmem),
      (insertTerm_perm t _).trans (hperm.cons t)⟩

theorem Normal.coefficients (h : a.Normal) :
    Ordered a.coefficients ∧ a.coefficients.Perm a.terms := by
  rw [Affine.coefficients, h.filter_terms]
  exact ordered_foldr_insertTerm h.nodup

theorem gatherTerm?_new (hnew : t.1 ∉ l.map (·.1)) : gatherTerm? t l = some (insertTerm t l) := by
  induction l with
  | nil => simp [gatherTerm?, insertTerm, Word.zero_add?]
  | cons u l ih =>
    rw [List.map_cons, List.mem_cons, not_or] at hnew
    rw [gatherTerm?, insertTerm, if_neg hnew.1, ih hnew.2, Word.zero_add?]
    split
    · rfl
    · rfl

theorem Normal.gathered?_eq (h : a.Normal) : a.gathered? = some a.coefficients := by
  -- the terms are put into an ordered list one by one
  have hfold : ∀ (ts l : List (String × Word)), Ordered l → ((l ++ ts).map (·.1)).Nodup → ∃ l',
      ts.foldlM (fun l t => gatherTerm? t l) l = some l' ∧ Ordered l' ∧ l'.Perm (l ++ ts) := by
    intro ts
    induction ts with
    | nil => exact fun l hl _ => ⟨l, rfl, hl, by rw [List.append_nil]⟩
    | cons t ts ih =>
      intro l hl hnodup
      have hperm : (insertTerm t l ++ ts).Perm (l ++ t :: ts) :=
        ((insertTerm_perm t l).append_right ts).trans List.perm_middle.symm
      have hnew : t.1 ∉ l.map (·.1) := by
        rw [List.map_append, List.map_cons] at hnodup
        exact fun hmem => (List.nodup_append.1 hnodup).2.2 _ hmem _ (.head _) rfl
      obtain ⟨l', hl', hordered, hperm'⟩ :=
        ih _ (hl.insertTerm hnew) ((hperm.map _).nodup_iff.2 hnodup)
      refine ⟨l', ?_, hordered, hperm'.trans hperm⟩
      rw [List.foldlM_cons, gatherTerm?_new hnew]
      exact hl'
  obtain ⟨l, hl, hordered, hperm⟩ := hfold a.terms [] .nil h.nodup
  have hkept : l.filter (·.2 != 0) = l :=
    List.filter_eq_self.2 fun t ht => bne_iff_ne.2 (h.nonzero t (hperm.mem_iff.1 ht))
  have heq := hordered.eq_of_perm h.coefficients.1 (hperm.trans h.coefficients.2.symm)
  rw [gathered?, hl, ← heq]
  exact congrArg some hkept

/-! ## Equal values -/

/-- A form with the values of another one has all its terms. -/
theorem Normal.mem_terms_of_value {b : Affine} (ha : a.Normal) (hb : b.Normal)
    (h : ∀ σ, a.value σ = b.value σ) (ht : t ∈ a.terms) : t ∈ b.terms := by
  have hzero := h fun _ => 0
  have hunit := h fun x => if x = t.1 then 1 else 0
  rw [value, value, sumOf_eq_zero_of fun _ _ => rfl, sumOf_eq_zero_of fun _ _ => rfl] at hzero
  rw [value, value, sumOf_unit ha.nodup ht] at hunit
  by_cases hmem : ∃ u ∈ b.terms, u.1 = t.1
  · obtain ⟨u, hu, heq⟩ := hmem
    rw [← heq, sumOf_unit hb.nodup hu] at hunit
    have hcoeff : u.2 = t.2 := Int64.toInt_inj.1 (by omega)
    rwa [← Prod.ext heq hcoeff]
  · rw [sumOf_eq_zero_of fun u hu => if_neg fun heq => hmem ⟨u, hu, heq⟩] at hunit
    exact absurd (Word.toInt_eq_zero.1 (by omega)) (ha.nonzero t ht)

theorem Normal.same_iff {b : Affine} (ha : a.Normal) (hb : b.Normal) :
    a.same b = true ↔ ∀ σ, a.value σ = b.value σ := by
  refine ⟨value_of_same, fun h => ?_⟩
  have hconstant : a.constant = b.constant := by
    have hzero := h fun _ => 0
    rw [value, value, sumOf_eq_zero_of fun _ _ => rfl, sumOf_eq_zero_of fun _ _ => rfl] at hzero
    exact Int64.toInt_inj.1 (by omega)
  have hterms : a.terms.Perm b.terms :=
    (List.perm_ext_iff_of_nodup (ha.nodup.of_map _) (hb.nodup.of_map _)).2 fun t =>
      ⟨ha.mem_terms_of_value hb h, hb.mem_terms_of_value ha fun σ => (h σ).symm⟩
  have hcoefficients : a.coefficients = b.coefficients :=
    ha.coefficients.1.eq_of_perm hb.coefficients.1
      ((ha.coefficients.2.trans hterms).trans hb.coefficients.2.symm)
  rw [same, hconstant, hcoefficients, Bool.and_eq_true, beq_iff_eq, beq_iff_eq]
  exact ⟨rfl, rfl⟩

/-- **Affine forms are canonical.** -/
theorem Obtainable.canonical {a b : Affine} (ha : a.Obtainable) (hb : b.Obtainable) :
    ((a.terms.map (·.1)).Nodup ∧ ∀ t ∈ a.terms, t.2 ≠ 0) ∧
      (∀ v, a.summedCoeff? v = some (a.coeff v)) ∧ a.gathered? = some a.coefficients ∧
      ofExpr? a.toExpr = some a ∧ (a.same b = true ↔ ∀ σ, a.value σ = b.value σ) :=
  ⟨⟨ha.normal.nodup, ha.normal.nonzero⟩, ha.normal.summedCoeff?_eq, ha.normal.gathered?_eq,
    ofExpr?_toExpr ha.normal, ha.normal.same_iff hb.normal⟩

/-- Two forms with the least word as a coefficient and as the constant, which differ in the order of
their terms. -/
theorem leastWord_canonical :
    let least : Word := -9223372036854775808
    let a : Affine := ⟨[("i", least), ("j", -1)], least⟩
    let b : Affine := ⟨[("j", -1), ("i", least)], least⟩
    a.Obtainable ∧ b.Obtainable ∧ ofExpr? a.toExpr = some a ∧
      a.same b = true ∧ ∀ σ, a.value σ = b.value σ := by
  intro least a b
  have ha : a.Obtainable := by
    have hterms : Obtainable ⟨[("i", least), ("j", -1)], 0⟩ :=
      .ofExpr (e := .sub (.mul (.int least) (.var "i")) (.var "j")) (by rfl)
    exact .addConstant hterms (k := least) (by rfl)
  have hb : b.Obtainable := by
    have hj : Obtainable ⟨[("j", -1)], least⟩ :=
      .ofExpr (e := .sub (.int least) (.var "j")) (by rfl)
    exact .add hj (.ofExpr (e := .mul (.int least) (.var "i")) rfl) (by rfl)
  have hsame : a.same b = true := by decide +kernel
  obtain ⟨-, -, -, hback, hiff⟩ := ha.canonical hb
  exact ⟨ha, hb, hback, hsame, hiff.1 hsame⟩

end Affine

end LoopNest
