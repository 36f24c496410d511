import LoopNest.Proofs.AffineValue
import LoopNest.Proofs.Simplify.Folding

/-!
# Affine forms of rewritten expressions

The form of an expression names every variable once, with a coefficient that is not 0
(`ofExpr?_normal`). Forms of this kind are what simplification works with: folding keeps the form of
an expression (`ofExpr?_fold`), and the canonical expression of a form has that very form
(`ofExpr?_toExpr`). Where variables are replaced by 0 their terms are left out
(`ofExpr?_zeroVars`); all of this without an overflow that was not there before.
-/

namespace LoopNest

namespace Affine

/-! ## Forms that are constant everywhere -/

variable {l l' ts : List (String × Word)} {a b : Affine} {n k c : Word} {e r : Expr} {v : String}

theorem sumOf_eq_zero_of {σ : String → Int} (h : ∀ t ∈ l, σ t.1 = 0) : sumOf σ l = 0 := by
  induction l with
  | nil => rfl
  | cons t l ih =>
    obtain ⟨ht, hl⟩ := List.forall_mem_cons.1 h
    rw [sumOf_cons, ht, ih hl, Int.mul_zero, Int.add_zero]

theorem sumOf_unit (hnodup : (l.map (·.1)).Nodup) {t : String × Word} (ht : t ∈ l) :
    sumOf (fun x => if x = t.1 then 1 else 0) l = t.2.toInt := by
  induction l with
  | nil => cases ht
  | cons u l ih =>
    obtain ⟨hnew, hnodup⟩ := List.nodup_cons.1 hnodup
    rw [sumOf_cons]
    obtain rfl | ht := List.mem_cons.1 ht
    · -- the variable is in no other term
      have hrest : sumOf (fun x => if x = t.1 then 1 else 0) l = 0 :=
        sumOf_eq_zero_of fun s hs => if_neg fun heq => hnew (List.mem_map.2 ⟨s, hs, heq⟩)
      rw [hrest, if_pos rfl, Int.mul_one, Int.add_zero]
    · have hne : u.1 ≠ t.1 := fun heq => hnew (List.mem_map.2 ⟨t, ht, heq.symm⟩)
      rw [if_neg hne, ih hnodup ht, Int.mul_zero, Int.zero_add]

/-- A form with the same value under every assignment is constant. -/
theorem constant?_of_value (hnodup : (a.terms.map (·.1)).Nodup) (h : ∀ σ, a.value σ = n.toInt) :
    a.constant? = some n := by
  have hconstant : a.constant.toInt = n.toInt := by
    have hzero : sumOf (fun _ => 0) a.terms = 0 := sumOf_eq_zero_of fun _ _ => rfl
    rw [← h fun _ => 0, value, hzero, Int.add_zero]
  have hterms : a.terms.all (·.2 == 0) = true := by
    rw [List.all_eq_true]
    intro t ht
    have hvalue := h fun x => if x = t.1 then 1 else 0
    rw [value, sumOf_unit hnodup ht, hconstant] at hvalue
    exact beq_iff_eq.2 (Word.toInt_eq_zero.1 (by omega))
  rw [constant?, if_pos hterms, Int64.toInt_inj.1 hconstant]

/-! ## Normal forms -/

/-- Every variable once, and none with the coefficient 0. -/
structure Normal (a : Affine) : Prop where
  nodup : (a.terms.map (·.1)).Nodup
  nonzero : ∀ t ∈ a.terms, t.2 ≠ 0

theorem nonzero_normalize (a : Affine) : ∀ t ∈ a.normalize.terms, t.2 ≠ 0 := by
  intro t ht
  simpa using (List.mem_filter.1 ht).2

theorem Normal.filter_terms (h : a.Normal) : a.terms.filter (·.2 != 0) = a.terms :=
  List.filter_eq_self.2 fun t ht => bne_iff_ne.2 (h.nonzero t ht)

theorem Normal.normalize_eq (h : a.Normal) : a.normalize = a := by
  rw [normalize, h.filter_terms]

theorem Normal.eq_ofWord (h : a.Normal) (hk : a.constant? = some k) : a = ofWord k := by
  unfold constant? at hk
  split at hk
  next hall =>
    have hterms : a.terms = [] := by
      refine List.eq_nil_iff_forall_not_mem.2 fun t ht => h.nonzero t ht ?_
      exact beq_iff_eq.1 (List.all_eq_true.1 hall t ht)
    rw [ofWord, ← hterms, ← Option.some.inj hk]
  · cases hk

theorem scale?_nonzero (h : a.scale? k = some b) : ∀ t ∈ b.terms, t.2 ≠ 0 := by
  obtain ⟨terms, c, -, -, rfl⟩ := scale?_iff.1 h
  exact nonzero_normalize _

theorem add?_nonzero {c : Affine} (h : a.add? b = some c) : ∀ t ∈ c.terms, t.2 ≠ 0 := by
  simp only [add?, option_bind_eq_some, Option.pure_def, Option.some.injEq] at h
  obtain ⟨terms, -, k, -, rfl⟩ := h
  exact nonzero_normalize _

theorem ofExpr?_normal (h : ofExpr? e = some a) : a.Normal := by
  refine ⟨(ofExpr?_nodup h).1, ?_⟩
  cases e with
  | var v =>
    cases h
    simp [ofVar]
  | int n =>
    cases h
    simp [ofWord]
  | neg e =>
    obtain ⟨b, -, h⟩ := ofExpr?_neg.1 h
    exact scale?_nonzero h
  | binary op l r =>
    obtain ⟨b, c, -, -, h⟩ := ofExpr?_binary.1 h
    cases h with
    | add h => exact add?_nonzero h
    | sub h =>
      obtain ⟨m, -, h⟩ := Option.bind_eq_some_iff.1 h
      exact add?_nonzero h
    | mulLeft _ h | mulRight _ _ h => exact scale?_nonzero h
    | div | mod => simp [ofWord]
  | float x | read b idx => cases h

/-- The form where some variables are 0. -/
def restrict (zeros : List String) (a : Affine) : Affine :=
  { a with terms := a.terms.filter fun t => !zeros.contains t.1 }

variable {zeros : List String}

theorem restrict_normalize (a : Affine) : a.normalize.restrict zeros = (a.restrict zeros).normalize := by
  simp only [restrict, normalize, List.filter_filter, Bool.and_comm]

theorem constant?_restrict (h : a.constant? = some k) : (a.restrict zeros).constant? = some k := by
  unfold constant? at h
  split at h
  next hall =>
    have hkept : (a.restrict zeros).terms.all (·.2 == 0) = true :=
      List.all_eq_true.2 fun t ht => List.all_eq_true.1 hall t (List.mem_filter.1 ht).1
    rw [constant?, if_pos hkept, ← Option.some.inj h]
    rfl
  · cases h

theorem Scaled.filter (h : Scaled k l l') (p : String → Bool) :
    Scaled k (l.filter (p ·.1)) (l'.filter (p ·.1)) := by
  induction h with
  | nil => exact .nil
  | cons ht _ ih =>
    rw [List.filter_cons, List.filter_cons, ht.1]
    split
    · exact .cons ht ih
    · exact ih

theorem scale?_restrict (h : a.scale? k = some b) :
    (a.restrict zeros).scale? k = some (b.restrict zeros) := by
  obtain ⟨terms, c, hterms, hc, rfl⟩ := scale?_iff.1 h
  exact scale?_iff.2 ⟨_, c, hterms.filter (!zeros.contains ·), hc,
    (restrict_normalize ⟨terms, c⟩).symm⟩

theorem addTerm?_filter (zeros : List String) (h : addTerm? v c l = some l') :
    if zeros.contains v then
      l'.filter (fun t => !zeros.contains t.1) = l.filter fun t => !zeros.contains t.1
    else addTerm? v c (l.filter fun t => !zeros.contains t.1) =
      some (l'.filter fun t => !zeros.contains t.1) := by
  induction l generalizing l' with
  | nil =>
    cases h
    split
    next hv => simp only [List.filter_cons, hv, Bool.not_true, Bool.false_eq_true, if_false]
    next hv =>
      rw [Bool.not_eq_true] at hv
      simp only [List.filter_cons, hv, Bool.not_false, if_true]
      rfl
  | cons t l ih =>
    obtain ⟨w, d⟩ := t
    rw [addTerm?] at h
    by_cases hw : w = v
    · rw [if_pos hw, option_bind_eq_some] at h
      obtain ⟨s, hs, h⟩ := h
      cases h
      subst hw
      split
      next hv => simp only [List.filter_cons, hv, Bool.not_true, Bool.false_eq_true, if_false]
      next hv =>
        rw [Bool.not_eq_true] at hv
        simp only [List.filter_cons, hv, Bool.not_false, if_true, addTerm?, hs]
        rfl
    · rw [if_neg hw, option_bind_eq_some] at h
      obtain ⟨rest, hrest, h⟩ := h
      cases h
      have htail := ih hrest
      split
      next hv =>
        rw [if_pos hv] at htail
        simp only [List.filter_cons, htail]
      next hv =>
        rw [if_neg hv] at htail
        by_cases hz : zeros.contains w = true
        · simp only [List.filter_cons, hz, Bool.not_true, Bool.false_eq_true, if_false]
          exact htail
        · rw [Bool.not_eq_true] at hz
          simp only [List.filter_cons, hz, Bool.not_false, if_true, addTerm?, hw, if_false, htail]
          rfl

theorem add?_restrict {c : Affine} (h : a.add? b = some c) :
    (a.restrict zeros).add? (b.restrict zeros) = some (c.restrict zeros) := by
  have hterms : ∀ ts l l' : List (String × Word),
      ts.foldlM (fun acc t => addTerm? t.1 t.2 acc) l = some l' →
        (ts.filter fun t => !zeros.contains t.1).foldlM (fun acc t => addTerm? t.1 t.2 acc)
          (l.filter fun t => !zeros.contains t.1) =
            some (l'.filter fun t => !zeros.contains t.1) := by
    intro ts
    induction ts with
    | nil =>
      rintro l l' ⟨⟩
      rfl
    | cons t ts ih =>
      intro l l' h
      rw [List.foldlM_cons, option_bind_eq_some] at h
      obtain ⟨m, hm, h⟩ := h
      have hstep := addTerm?_filter zeros hm
      split at hstep
      next hz =>
        simp only [List.filter_cons, hz, Bool.not_true, Bool.false_eq_true, if_false]
        rw [← hstep]
        exact ih m l' h
      next hz =>
        rw [Bool.not_eq_true] at hz
        simp only [List.filter_cons, hz, Bool.not_false, if_true, List.foldlM_cons, hstep]
        exact ih m l' h
  simp only [add?, option_bind_eq_some, Option.pure_def,
    Option.some.injEq] at h ⊢
  obtain ⟨terms, hfold, k, hk, rfl⟩ := h
  exact ⟨_, hterms _ _ _ hfold, k, hk, (restrict_normalize ⟨terms, k⟩).symm⟩

theorem sub?_restrict {c : Affine} (h : a.sub? b = some c) :
    (a.restrict zeros).sub? (b.restrict zeros) = some (c.restrict zeros) := by
  simp only [sub?, option_bind_eq_some] at h ⊢
  obtain ⟨m, hm, h⟩ := h
  exact ⟨_, scale?_restrict hm, add?_restrict h⟩

theorem Normal.restrict (h : a.Normal) (zeros : List String) : (a.restrict zeros).Normal where
  nodup := h.nodup.sublist (List.filter_sublist.map _)
  nonzero t ht := h.nonzero t (List.mem_filter.1 ht).1

theorem scale?_ofWord_comm (k m : Word) : (ofWord k).scale? m = (ofWord m).scale? k := by
  simp only [scale?, ofWord, List.mapM_nil, Word.mul?, Int.mul_comm k.toInt]

theorem ofExpr?_zeroVars (h : ofExpr? e = some a) :
    ofExpr? (e.zeroVars zeros) = some (a.restrict zeros) := by
  rw [Expr.zeroVars]
  induction e generalizing a with
  | var v =>
    cases h
    rw [Expr.rebuild]
    split
    next hv => simp [ofExpr?, ofWord, restrict, ofVar, List.contains_iff_mem.1 hv]
    next hv =>
      rw [Bool.not_eq_true] at hv
      simp only [ofExpr?, restrict, ofVar, List.filter_cons, hv, Bool.not_false, if_true,
        List.filter_nil]
  | int n =>
    cases h
    rfl
  | neg e ih =>
    obtain ⟨b, hb, h⟩ := ofExpr?_neg.1 h
    exact ofExpr?_neg.2 ⟨_, ih hb, scale?_restrict h⟩
  | binary op l r ihl ihr =>
    obtain ⟨b, c, hb, hc, h⟩ := ofExpr?_binary.1 h
    refine ofExpr?_binary.2 ⟨_, _, ihl hb, ihr hc, ?_⟩
    cases h with
    | add h => exact .add (add?_restrict h)
    | sub h => exact .sub (sub?_restrict h)
    | mulLeft hk h => exact .mulLeft (constant?_restrict hk) (scale?_restrict h)
    | mulRight hnone hk h =>
      cases hb' : (b.restrict zeros).constant? with
      | none => exact .mulRight hb' (constant?_restrict hk) (scale?_restrict h)
      | some m =>
        -- only variables that are 0 kept the left factor from being constant
        refine .mulLeft hb' ?_
        have hm := ((ofExpr?_normal hb).restrict zeros).eq_ofWord hb'
        have hk' := ((ofExpr?_normal hc).restrict zeros).eq_ofWord (constant?_restrict hk)
        rw [hk', scale?_ofWord_comm, ← hm]
        exact scale?_restrict h
    | div hk hm hq => exact .div (constant?_restrict hk) (constant?_restrict hm) hq
    | mod hk hm hq => exact .mod (constant?_restrict hk) (constant?_restrict hm) hq
  | float x | read b idx => simp [ofExpr?] at h

/-! ## Folding and the canonical expression -/

theorem addTerm?_new (c : Word) (hv : v ∉ l.map (·.1)) : addTerm? v c l = some (l ++ [(v, c)]) := by
  induction l with
  | nil => rfl
  | cons t l ih =>
    rw [List.map_cons, List.mem_cons, not_or] at hv
    rw [addTerm?, if_neg (Ne.symm hv.1), ih hv.2]
    rfl

theorem addTerms_new (hnodup : ((l ++ ts).map (·.1)).Nodup) :
    ts.foldlM (fun acc t => addTerm? t.1 t.2 acc) l = some (l ++ ts) := by
  induction ts generalizing l with
  | nil => rw [List.append_nil]; rfl
  | cons t ts ih =>
    have hnew : t.1 ∉ l.map (·.1) := by
      rw [List.map_append, List.map_cons] at hnodup
      exact fun hmem => (List.nodup_append.1 hnodup).2.2 _ hmem _ (.head _) rfl
    rw [List.foldlM_cons, addTerm?_new t.2 hnew, Option.bind_eq_bind, Option.bind_some,
      ih (by rwa [List.append_assoc, List.singleton_append]), List.append_assoc,
      List.singleton_append]

/-- The sum of forms with different variables. -/
theorem add?_disjoint {us : List (String × Word)} {m : Word} (h : Normal ⟨ts ++ us, n⟩)
    (hk : Word.add? k m = some n) : add? ⟨ts, k⟩ ⟨us, m⟩ = some ⟨ts ++ us, n⟩ := by
  have hterms : us.foldlM (fun acc t => addTerm? t.1 t.2 acc) ts = some (ts ++ us) :=
    addTerms_new h.nodup
  simp only [add?, hterms, hk, Option.bind_eq_bind, Option.bind_some, Option.pure_def]
  rw [h.normalize_eq]

theorem Normal.add?_zero (h : a.Normal) : a.add? (ofWord 0) = some a := by
  have hsum : Normal ⟨a.terms ++ [], a.constant⟩ := by rwa [List.append_nil]
  have hadd : add? ⟨a.terms, a.constant⟩ ⟨[], 0⟩ = some ⟨a.terms ++ [], a.constant⟩ :=
    add?_disjoint hsum (Word.add?_eq_some.2 (by rw [Int64.toInt_zero, Int.add_zero]))
  rwa [List.append_nil] at hadd

/-- The first terms alone. -/
theorem Normal.left {us : List (String × Word)} {m : Word} (h : Normal ⟨ts ++ us, n⟩) :
    Normal ⟨ts, m⟩ where
  nodup := h.nodup.sublist ((List.sublist_append_left _ _).map _)
  nonzero t ht := h.nonzero t (List.mem_append_left _ ht)

theorem Normal.add?_constant (h : Normal ⟨ts, k⟩) : add? ⟨ts, 0⟩ (ofWord k) = some ⟨ts, k⟩ := by
  have hsum : Normal ⟨ts ++ [], k⟩ := by rwa [List.append_nil]
  have hk : Word.add? 0 k = some k :=
    Word.add?_eq_some.2 (by rw [Int64.toInt_zero, Int.zero_add])
  have hdisjoint : add? ⟨ts, 0⟩ ⟨[], k⟩ = some ⟨ts ++ [], k⟩ := add?_disjoint hsum hk
  rwa [List.append_nil] at hdisjoint

theorem Normal.zero_add? (h : a.Normal) : (ofWord 0).add? a = some a := by
  have hadd : add? ⟨[], 0⟩ ⟨a.terms, a.constant⟩ = some ⟨[] ++ a.terms, a.constant⟩ :=
    add?_disjoint h (Word.add?_eq_some.2 (by rw [Int64.toInt_zero, Int.zero_add]))
  exact hadd

theorem Scaled.nonzero (h : Scaled (-1) l l') (hl : ∀ t ∈ l, t.2 ≠ 0) : ∀ t ∈ l', t.2 ≠ 0 := by
  induction h with
  | nil => exact hl
  | @cons t t' l l' ht h ih =>
    obtain ⟨hne, hl⟩ := List.forall_mem_cons.1 hl
    refine List.forall_mem_cons.2 ⟨fun hzero => hne (Word.toInt_eq_zero.1 ?_), ih hl⟩
    have hcoeff := ht.2
    rw [hzero, Int64.toInt_zero, Word.toInt_neg_one] at hcoeff
    omega

theorem scale?_of_scaled (h : b.Normal) (hterms : Scaled k a.terms b.terms)
    (hconstant : b.constant.toInt = a.constant.toInt * k.toInt) : a.scale? k = some b :=
  scale?_iff.2 ⟨_, _, hterms, hconstant, h.normalize_eq⟩

theorem Normal.scale?_one (h : a.Normal) : a.scale? 1 = some a := by
  refine scale?_of_scaled h (List.forall₂_same.2 fun t _ => ⟨rfl, ?_⟩) ?_
  · rw [Int64.toInt_one, Int.mul_one]
  · rw [Int64.toInt_one, Int.mul_one]

theorem scale?_zero (a : Affine) : a.scale? 0 = some (ofWord 0) := by
  have hterms : Scaled 0 a.terms (a.terms.map fun t => (t.1, 0)) := by
    rw [Scaled, List.forall₂_map_right_iff]
    exact List.forall₂_same.2 fun t _ => ⟨rfl, by rw [Int64.toInt_zero, Int.mul_zero]⟩
  refine scale?_iff.2 ⟨_, 0, hterms, by rw [Int64.toInt_zero, Int.mul_zero], ?_⟩
  have hfilter : (a.terms.map fun t => (t.1, (0 : Word))).filter (·.2 != 0) = [] := by
    refine List.filter_eq_nil_iff.2 fun t ht => ?_
    obtain ⟨u, -, rfl⟩ := List.mem_map.1 ht
    simp
  rw [normalize, hfilter]
  rfl

/-- Two signs cancel. -/
theorem Normal.scale?_neg_neg (h : a.Normal) (hb : a.scale? (-1) = some b) :
    b.scale? (-1) = some a := by
  obtain ⟨terms, c, hscaled, hc, rfl⟩ := scale?_iff.1 hb
  have hback : ∀ {x y : Int}, y = x * Int64.toInt (-1) → x = y * Int64.toInt (-1) := by
    rintro x _ rfl
    rw [Word.toInt_neg_one]
    omega
  -- no coefficient became 0, so no term was left out
  have hkept : terms.filter (·.2 != 0) = terms :=
    List.filter_eq_self.2 fun t ht => bne_iff_ne.2 (hscaled.nonzero h.nonzero t ht)
  rw [normalize, hkept]
  refine scale?_of_scaled h ?_ (hback hc)
  exact List.Forall₂.flip (hscaled.imp fun t t' ht => ⟨ht.1.symm, hback ht.2⟩)

theorem scale?_ofWord {m : Word} (h : Word.mul? k m = some n) :
    (ofWord k).scale? m = some (ofWord n) := by
  simp only [scale?, ofWord, List.mapM_nil, h, Option.pure_def, Option.bind_eq_bind,
    Option.bind_some, normalize, List.filter_nil]

theorem constant?_ofWord (k : Word) : (ofWord k).constant? = some k := rfl

/-- Folding two literals gives the form of their result. -/
theorem ofExpr?_literals {op : Op} {x y : Word} (hn : op.onWords? x y = some n)
    (h : ofExpr? (.binary op (.int x) (.int y)) = some a) : a = ofWord n := by
  obtain ⟨b, c, ⟨⟩, ⟨⟩, hcomp⟩ := ofExpr?_binary.1 h
  -- the form of the result is constant, with the value of the folded literal
  refine (ofExpr?_normal h).eq_ofWord (constant?_of_value (ofExpr?_nodup h).1 fun σ => ?_)
  have hvalue := hcomp.value σ
  rw [value_ofWord, value_ofWord, Op.onInts?_of_onWords? hn] at hvalue
  exact (Option.some.inj hvalue).symm

theorem ofExpr?_mul_left {l : Expr} {c : Affine} (hl : ofExpr? l = some (ofWord k))
    (hr : ofExpr? r = some c) (h : ofExpr? (.binary .mul l r) = some a) : c.scale? k = some a := by
  simpa only [ofExpr?, hl, hr, constant?_ofWord, Option.bind_eq_bind, Option.bind_some] using h

theorem ofExpr?_mul_right {l : Expr} (hl : ofExpr? l = some b) (hr : ofExpr? r = some (ofWord k))
    (h : ofExpr? (.binary .mul l r) = some a) : b.scale? k = some a := by
  simp only [ofExpr?, hl, hr, constant?_ofWord, Option.bind_eq_bind, Option.bind_some] at h
  cases hb : b.constant? with
  | none => rwa [hb] at h
  | some m =>
    rw [hb] at h
    rw [(ofExpr?_normal hl).eq_ofWord hb, scale?_ofWord_comm]
    exact h

theorem ofExpr?_of_folds {e' : Expr} (hf : e.Folds e') (h : ofExpr? e = some a) :
    ofExpr? e' = some a := by
  cases hf with
  | kept => exact h
  | literals hn =>
    rw [ofExpr?_literals hn h]
    rfl
  | zero_add =>
    obtain ⟨_, c, ⟨⟩, hc, ⟨hadd⟩⟩ := ofExpr?_binary.1 h
    rw [hc, ← hadd, (ofExpr?_normal hc).zero_add?]
  | add_zero =>
    obtain ⟨b, _, hb, ⟨⟩, ⟨hadd⟩⟩ := ofExpr?_binary.1 h
    rw [hb, ← hadd, (ofExpr?_normal hb).add?_zero]
  | sub_zero =>
    obtain ⟨b, _, hb, ⟨⟩, hcomp⟩ := ofExpr?_binary.1 h
    cases hcomp with
    | sub hsub =>
      have hzero : (ofWord 0).scale? (-1) = some (ofWord 0) := scale?_ofWord rfl
      rw [hb, ← hsub, sub?, hzero]
      exact (ofExpr?_normal hb).add?_zero.symm
  | one_mul =>
    obtain ⟨_, c, -, hc, -⟩ := ofExpr?_binary.1 h
    rw [hc, ← ofExpr?_mul_left rfl hc h, (ofExpr?_normal hc).scale?_one]
  | mul_one =>
    obtain ⟨b, _, hb, -, -⟩ := ofExpr?_binary.1 h
    rw [hb, ← ofExpr?_mul_right hb rfl h, (ofExpr?_normal hb).scale?_one]
  | zero_mul =>
    obtain ⟨_, c, -, hc, -⟩ := ofExpr?_binary.1 h
    rw [← ofExpr?_mul_left rfl hc h, scale?_zero]
    rfl
  | mul_zero =>
    obtain ⟨b, _, hb, -, -⟩ := ofExpr?_binary.1 h
    rw [← ofExpr?_mul_right hb rfl h, scale?_zero]
    rfl
  | div_one =>
    obtain ⟨b, _, hb, ⟨⟩, hcomp⟩ := ofExpr?_binary.1 h
    cases hcomp with
    | div hk hm hq =>
      obtain rfl := Option.mem_unique (constant?_ofWord 1) hm
      have hvalue := (Word.div?_eq_some.1 hq).2
      rw [Int64.toInt_one, Int.ediv_one] at hvalue
      rw [hb, (ofExpr?_normal hb).eq_ofWord hk, Int64.toInt_inj.1 hvalue]
  | mod_one =>
    obtain ⟨b, _, -, ⟨⟩, hcomp⟩ := ofExpr?_binary.1 h
    cases hcomp with
    | mod hk hm hq =>
      obtain rfl := Option.mem_unique (constant?_ofWord 1) hm
      have hvalue := (Word.mod?_eq_some.1 hq).2
      rw [Int64.toInt_one, Int.emod_one] at hvalue
      rw [Word.toInt_eq_zero.1 hvalue]
      rfl
  | literal hm =>
    obtain ⟨_, ⟨⟩, h⟩ := ofExpr?_neg.1 h
    rw [← h, scale?_ofWord (Word.mul?_eq_some.2 ?_)]
    · rfl
    · rw [Word.neg?_eq_some.1 hm, Word.toInt_neg_one]
      omega
  | neg_neg =>
    obtain ⟨b, hb, h⟩ := ofExpr?_neg.1 h
    obtain ⟨d, hd, hb⟩ := ofExpr?_neg.1 hb
    rw [hd, ← h, (ofExpr?_normal hd).scale?_neg_neg hb]

/-- **Folding keeps the form.** -/
theorem ofExpr?_fold (h : ofExpr? e = some a) : ofExpr? e.fold = some a := by
  induction e generalizing a with
  | binary op l r ihl ihr =>
    obtain ⟨b, c, hb, hc, h⟩ := ofExpr?_binary.1 h
    exact ofExpr?_of_folds (Expr.folds_foldBinary ..)
      (ofExpr?_binary.2 ⟨b, c, ihl hb, ihr hc, h⟩)
  | neg e ih =>
    obtain ⟨b, hb, h⟩ := ofExpr?_neg.1 h
    exact ofExpr?_of_folds (Expr.folds_neg e) (ofExpr?_neg.2 ⟨b, ih hb, h⟩)
  | var v | int n | float x | read b idx => exact h

theorem normal_single (v : String) (hc : c ≠ 0) (k : Word) : Normal ⟨[(v, c)], k⟩ where
  nodup := by simp
  nonzero := by simpa using hc

theorem scale?_single (v : String) {d : Word} (hd : d ≠ 0) (h : d.toInt = c.toInt * k.toInt) :
    scale? k ⟨[(v, c)], 0⟩ = some ⟨[(v, d)], 0⟩ :=
  scale?_of_scaled (normal_single v hd 0) (.cons ⟨rfl, h⟩ .nil)
    (by rw [Int64.toInt_zero, Int.zero_mul])

theorem Product.ofExpr? (h : Product v c e) (hc : c ≠ 0) : ofExpr? e = some ⟨[(v, c)], 0⟩ := by
  cases h with
  | one => rfl
  | times =>
    have hscale : (ofVar v).scale? c = some ⟨[(v, c)], 0⟩ :=
      scale?_single v hc (by rw [Int64.toInt_one, Int.one_mul])
    rw [Expr.mul, ← hscale]
    simp only [Affine.ofExpr?, constant?_ofWord, Option.bind_eq_bind, Option.bind_some]

/-- What spells a normal form has that form. -/
theorem Spells.ofExpr? (h : Spells ts k e) (hn : Normal ⟨ts, k⟩) : ofExpr? e = some ⟨ts, k⟩ := by
  induction h with
  | constant k => rfl
  | lead ht => exact ht.ofExpr? (hn.nonzero _ (.head _))
  | negated v =>
    have hscale : scale? (-1) ⟨[(v, 1)], 0⟩ = some ⟨[(v, -1)], 0⟩ :=
      scale?_single v (hn.nonzero _ (.head _)) (by decide)
    exact hscale
  | @plus ts e t v c _ ht ih =>
    have hsum : add? ⟨ts, 0⟩ ⟨[(v, c)], 0⟩ = some ⟨ts ++ [(v, c)], 0⟩ := add?_disjoint hn rfl
    simp only [Expr.add, Affine.ofExpr?, ih hn.left, ht.ofExpr? (hn.nonzero (v, c) (by simp)),
      Option.bind_eq_bind, Option.bind_some, hsum]
  | @minus ts e t v c m _ ht hm ih =>
    have hc : c ≠ 0 := hn.nonzero (v, c) (by simp)
    have hm0 : m ≠ 0 := fun h0 => hc (Word.toInt_eq_zero.1 (by rw [hm, h0]; rfl))
    have hscale : scale? (-1) ⟨[(v, m)], 0⟩ = some ⟨[(v, c)], 0⟩ :=
      scale?_single v hc (by rw [Word.toInt_neg_one]; omega)
    have hsum : add? ⟨ts, 0⟩ ⟨[(v, c)], 0⟩ = some ⟨ts ++ [(v, c)], 0⟩ := add?_disjoint hn rfl
    simp only [Expr.sub, Affine.ofExpr?, ih hn.left, ht.ofExpr? hm0, Option.bind_eq_bind,
      Option.bind_some, sub?, hscale, hsum]
  | plusConstant k _ ih =>
    simp only [Expr.add, Affine.ofExpr?, ih ⟨hn.nodup, hn.nonzero⟩, Option.bind_eq_bind,
      Option.bind_some, hn.add?_constant]
  | @minusConstant ts e k m _ hm ih =>
    have hscale : (ofWord m).scale? (-1) = some (ofWord k) :=
      scale?_ofWord (Word.mul?_eq_some.2 (by rw [hm, Word.toInt_neg_one]; omega))
    simp only [Expr.sub, Affine.ofExpr?, ih ⟨hn.nodup, hn.nonzero⟩, Option.bind_eq_bind,
      Option.bind_some, sub?, hscale, hn.add?_constant]

/-- **The canonical expression has the form it was made from.** -/
theorem ofExpr?_toExpr (h : a.Normal) : ofExpr? a.toExpr = some a := by
  have hspells := a.spells_toExpr
  rw [h.filter_terms] at hspells
  exact hspells.ofExpr? h

theorem ofExpr?_simplifyIndex (h : ofExpr? e = some a) : ofExpr? e.simplifyIndex = some a := by
  rw [Expr.simplifyIndex, ofExpr?_fold h]
  exact ofExpr?_toExpr (ofExpr?_normal h)

end Affine

end LoopNest
