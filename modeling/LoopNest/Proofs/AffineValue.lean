import LoopNest.Proofs.IndexValue

/-!
# What affine forms stand for

An affine form has a value for every assignment of integers to variables. All operations on forms
keep values (`add?_eq_some`, `scale?_eq_some`, ...), the form of an expression has the expression's
unbounded value (`ofExpr?_value`), and the canonical expression of a form has the form's value
(`wide?_toExpr`). Every form of an expression names each variable at most once (`ofExpr?_nodup`), so
its coefficients can be read off the terms one by one.
-/

namespace LoopNest

namespace Affine

/-- The sum of terms under an assignment. -/
def sumOf (σ : String → Int) (terms : List (String × Word)) : Int :=
  (terms.map fun t => t.2.toInt * σ t.1).sum

/-- The value of a form under an assignment. -/
def value (σ : String → Int) (a : Affine) : Int := a.constant.toInt + sumOf σ a.terms

@[simp] theorem sumOf_nil (σ : String → Int) : sumOf σ [] = 0 := rfl

@[simp] theorem sumOf_cons (σ : String → Int) (t : String × Word) (l : List (String × Word)) :
    sumOf σ (t :: l) = t.2.toInt * σ t.1 + sumOf σ l := by
  simp [sumOf]

theorem sumOf_filter (σ : String → Int) (l : List (String × Word)) :
    sumOf σ (l.filter (·.2 != 0)) = sumOf σ l := by
  induction l with
  | nil => rfl
  | cons t l ih =>
    by_cases h : t.2 = 0
    · have hz : t.2.toInt = 0 := Word.toInt_eq_zero.2 h
      simp [h, ih]
    · simp [h, ih]

variable {σ : String → Int} {l l' : List (String × Word)} {a b c : Affine} {k : Word} {e : Expr}
  {op : Op}

theorem sumOf_eq_zero (h : l.all (·.2 == 0) = true) : sumOf σ l = 0 := by
  induction l with
  | nil => rfl
  | cons t l ih =>
    simp only [List.all_cons, Bool.and_eq_true, beq_iff_eq] at h
    rw [sumOf_cons, Word.toInt_eq_zero.2 h.1, ih h.2]
    simp

theorem value_normalize (σ : String → Int) (a : Affine) : a.normalize.value σ = a.value σ := by
  simp [value, normalize, sumOf_filter]

theorem value_ofVar (σ : String → Int) (v : String) : (ofVar v).value σ = σ v := by
  simp [value, ofVar]

theorem value_ofWord (σ : String → Int) (n : Word) : (ofWord n).value σ = n.toInt := by
  simp [value, ofWord]

theorem value_of_constant? (h : a.constant? = some k) (σ : String → Int) : a.value σ = k.toInt := by
  unfold constant? at h
  split at h
  · rename_i hall
    obtain rfl := Option.some.inj h
    simp [value, sumOf_eq_zero hall]
  · simp at h

theorem find?_of_nodup (hnodup : (l.map (·.1)).Nodup) {t : String × Word} (ht : t ∈ l) :
    l.find? (·.1 = t.1) = some t := by
  induction l with
  | nil => cases ht
  | cons u l ih =>
    rw [List.map_cons, List.nodup_cons] at hnodup
    obtain rfl | ht := List.mem_cons.1 ht
    · simp
    · have hne : u.1 ≠ t.1 := fun heq => hnodup.1 (heq ▸ List.mem_map_of_mem ht)
      rw [List.find?_cons_of_neg (by simpa using hne), ih hnodup.2 ht]

/-- Only the variables that a form mentions matter for its value. -/
theorem value_congr {τ : String → Int} (hnodup : (a.terms.map (·.1)).Nodup)
    (h : ∀ v, a.mentions v = true → σ v = τ v) : a.value σ = a.value τ := by
  have hterm : ∀ t ∈ a.terms, t.2.toInt * σ t.1 = t.2.toInt * τ t.1 := by
    rintro ⟨v, c⟩ ht
    by_cases hc : c = 0
    · simp [hc]
    · have hcoeff : a.coeff v = c := by
        simp [coeff, find?_of_nodup hnodup ht]
      rw [h v (by simp [mentions, hcoeff, hc])]
  rw [value, value, sumOf, sumOf, List.map_congr_left hterm]

/-! ## Operations -/

/-- Terms with the same variables and `k` times the coefficients. -/
def Scaled (k : Word) : List (String × Word) → List (String × Word) → Prop :=
  List.Forall₂ fun t t' => t'.1 = t.1 ∧ t'.2.toInt = t.2.toInt * k.toInt

theorem Scaled.keys (h : Scaled k l l') : l'.map (·.1) = l.map (·.1) := by
  induction h with
  | nil => rfl
  | cons ht _ ih => rw [List.map_cons, List.map_cons, ht.1, ih]

theorem Scaled.sumOf (h : Scaled k l l') (σ : String → Int) : sumOf σ l' = k.toInt * sumOf σ l := by
  induction h with
  | nil => exact (Int.mul_zero _).symm
  | cons ht _ ih =>
    rw [sumOf_cons, sumOf_cons, ht.1, ht.2, ih]
    ring

theorem scale?_iff : a.scale? k = some b ↔ ∃ terms c, Scaled k a.terms terms ∧
    c.toInt = a.constant.toInt * k.toInt ∧ normalize ⟨terms, c⟩ = b := by
  have hterm : ∀ t t' : String × Word, (Word.mul? t.2 k).bind (fun c => some (t.1, c)) = some t' ↔
      t'.1 = t.1 ∧ t'.2.toInt = t.2.toInt * k.toInt := by
    rintro t ⟨v, c⟩
    rw [← Word.mul?_eq_some, Option.bind_eq_some_iff]
    simp [and_comm, eq_comm]
  simp only [scale?, mapM_eq_some, Option.bind_eq_bind, Option.pure_def, Option.bind_eq_some_iff,
    Option.some.injEq, hterm, Word.mul?_eq_some, exists_and_left, Scaled]

theorem scale?_eq_some (h : a.scale? k = some b) :
    (b.terms.map (·.1)).Sublist (a.terms.map (·.1)) ∧ ∀ σ, b.value σ = k.toInt * a.value σ := by
  obtain ⟨terms, c, hterms, hc, rfl⟩ := scale?_iff.1 h
  refine ⟨?_, fun σ => ?_⟩
  · rw [← hterms.keys]
    exact List.Sublist.map _ List.filter_sublist
  · rw [value_normalize, value, value, hterms.sumOf, hc]
    ring

theorem addTerm?_eq_some {v : String} {c : Word} (h : addTerm? v c l = some l') :
    l'.map (·.1) = (if v ∈ l.map (·.1) then l.map (·.1) else l.map (·.1) ++ [v]) ∧
      ∀ σ, sumOf σ l' = sumOf σ l + c.toInt * σ v := by
  induction l generalizing l' with
  | nil =>
    simp only [addTerm?, Option.some.injEq] at h
    subst h
    simp
  | cons t l ih =>
    obtain ⟨w, d⟩ := t
    simp only [addTerm?] at h
    by_cases hw : w = v
    · simp only [hw, if_true, Option.bind_eq_bind, Option.pure_def, Option.bind_eq_some_iff,
        Option.some.injEq] at h
      obtain ⟨s, hs, rfl⟩ := h
      refine ⟨by simp [hw], fun σ => ?_⟩
      simp only [sumOf_cons, Word.add?_eq_some.1 hs, hw]
      ring
    · simp only [hw, if_false, Option.bind_eq_bind, Option.pure_def, Option.bind_eq_some_iff,
        Option.some.injEq] at h
      obtain ⟨rest, hrest, rfl⟩ := h
      obtain ⟨hkeys, hsum⟩ := ih hrest
      refine ⟨?_, fun σ => ?_⟩
      · rw [List.map_cons, hkeys, List.map_cons]
        have hvw : ¬ v = w := fun h => hw h.symm
        by_cases hv : v ∈ l.map (·.1)
        · rw [if_pos hv, if_pos (.tail _ hv)]
        · rw [if_neg hv, if_neg (by simp only [List.mem_cons, not_or]; exact ⟨hvw, hv⟩)]
          rfl
      · simp only [sumOf_cons, hsum]
        ring

theorem addTerms_eq_some {ts : List (String × Word)}
    (h : ts.foldlM (fun acc t => addTerm? t.1 t.2 acc) l = some l') :
    ((l.map (·.1)).Nodup → (l'.map (·.1)).Nodup) ∧
      (∀ v ∈ l'.map (·.1), v ∈ l.map (·.1) ∨ v ∈ ts.map (·.1)) ∧
      ∀ σ, sumOf σ l' = sumOf σ l + sumOf σ ts := by
  induction ts generalizing l with
  | nil =>
    simp only [List.foldlM_nil, Option.pure_def, Option.some.injEq] at h
    subst h
    exact ⟨id, fun v hv => .inl hv, by simp⟩
  | cons t ts ih =>
    simp only [List.foldlM_cons, option_bind_eq_some] at h
    obtain ⟨m, hm, h⟩ := h
    obtain ⟨hkeys, hsum⟩ := addTerm?_eq_some hm
    obtain ⟨hnodup, hmem, hrest⟩ := ih h
    refine ⟨fun hl => hnodup ?_, fun v hv => ?_, fun σ => ?_⟩
    · rw [hkeys]
      split
      · exact hl
      · rename_i hv
        exact List.nodup_append.2 ⟨hl, by simp, by
          rintro a ha b hb rfl
          exact hv (List.mem_singleton.1 hb ▸ ha)⟩
    · rcases hmem v hv with hv | hv
      · rw [hkeys] at hv
        split at hv
        · exact .inl hv
        · rcases List.mem_append.1 hv with hv | hv
          · exact .inl hv
          · exact .inr (by simp [List.mem_singleton.1 hv])
      · exact .inr (.tail _ hv)
    · rw [hrest, hsum, sumOf_cons]
      ring

theorem add?_eq_some (h : a.add? b = some c) :
    ((a.terms.map (·.1)).Nodup → (c.terms.map (·.1)).Nodup) ∧
      (∀ v ∈ c.terms.map (·.1), v ∈ a.terms.map (·.1) ∨ v ∈ b.terms.map (·.1)) ∧
      ∀ σ, c.value σ = a.value σ + b.value σ := by
  simp only [add?, Option.bind_eq_bind, Option.pure_def, Option.bind_eq_some_iff,
    Option.some.injEq] at h
  obtain ⟨terms, hterms, k, hk, rfl⟩ := h
  obtain ⟨hnodup, hmem, hsum⟩ := addTerms_eq_some hterms
  have hsub : ((normalize ⟨terms, k⟩).terms.map (·.1)).Sublist (terms.map (·.1)) :=
    List.Sublist.map _ List.filter_sublist
  refine ⟨fun ha => (hnodup ha).sublist hsub, fun v hv => hmem v (hsub.subset hv), fun σ => ?_⟩
  rw [value_normalize]
  simp only [value, hsum, Word.add?_eq_some.1 hk]
  ring

theorem sub?_eq_some (h : a.sub? b = some c) :
    ((a.terms.map (·.1)).Nodup → (c.terms.map (·.1)).Nodup) ∧
      (∀ v ∈ c.terms.map (·.1), v ∈ a.terms.map (·.1) ∨ v ∈ b.terms.map (·.1)) ∧
      ∀ σ, c.value σ = a.value σ - b.value σ := by
  simp only [sub?, option_bind_eq_some] at h
  obtain ⟨m, hm, h⟩ := h
  obtain ⟨hkeys, hscale⟩ := scale?_eq_some hm
  obtain ⟨hnodup, hmem, hadd⟩ := add?_eq_some h
  refine ⟨hnodup, fun v hv => (hmem v hv).imp_right fun h => hkeys.subset h, fun σ => ?_⟩
  rw [hadd, hscale, Word.toInt_neg_one]
  ring

theorem addConstant?_eq_some (h : a.addConstant? k = some b) :
    b.terms = a.terms ∧ ∀ σ, b.value σ = a.value σ + k.toInt := by
  simp only [addConstant?, Option.bind_eq_bind, Option.pure_def, Option.bind_eq_some_iff,
    Option.some.injEq] at h
  obtain ⟨c, hc, rfl⟩ := h
  refine ⟨rfl, fun σ => ?_⟩
  simp only [value, Word.add?_eq_some.1 hc]
  ring

/-! ## The form of an expression -/

/-- How the form of an operation comes about from the forms of its operands. -/
inductive Composed : Op → Affine → Affine → Affine → Prop
  | add {a b c : Affine} (h : a.add? b = some c) : Composed .add a b c
  | sub {a b c : Affine} (h : a.sub? b = some c) : Composed .sub a b c
  | mulLeft {a b c : Affine} {k : Word} (hk : a.constant? = some k) (h : b.scale? k = some c) :
      Composed .mul a b c
  | mulRight {a b c : Affine} {k : Word} (hnone : a.constant? = none) (hk : b.constant? = some k)
      (h : a.scale? k = some c) : Composed .mul a b c
  | div {a b : Affine} {k m q : Word} (hk : a.constant? = some k) (hm : b.constant? = some m)
      (h : Word.div? k m = some q) : Composed .div a b (ofWord q)
  | mod {a b : Affine} {k m q : Word} (hk : a.constant? = some k) (hm : b.constant? = some m)
      (h : Word.mod? k m = some q) : Composed .mod a b (ofWord q)

theorem ofExpr?_neg :
    ofExpr? (.neg e) = some a ↔ ∃ b, ofExpr? e = some b ∧ b.scale? (-1) = some a := by
  simp only [ofExpr?, option_bind_eq_some]

theorem ofExpr?_binary {l r : Expr} :
    ofExpr? (.binary op l r) = some a ↔
      ∃ b c, ofExpr? l = some b ∧ ofExpr? r = some c ∧ Composed op b c a := by
  constructor
  · intro h
    cases op with
    | add | sub =>
      simp only [ofExpr?, option_bind_eq_some] at h
      obtain ⟨b, hb, c, hc, h⟩ := h
      exact ⟨b, c, hb, hc, by constructor; exact h⟩
    | mul =>
      simp only [ofExpr?, option_bind_eq_some] at h
      obtain ⟨b, hb, c, hc, h⟩ := h
      refine ⟨b, c, hb, hc, ?_⟩
      split at h
      next hk => exact .mulLeft hk h
      next hnone hk => exact .mulRight hnone hk h
      next => cases h
    | div | mod =>
      simp only [ofExpr?, option_bind_eq_some, Option.pure_def, Option.some.injEq] at h
      obtain ⟨b, hb, k, hk, c, hc, m, hm, q, hq, rfl⟩ := h
      exact ⟨b, c, hb, hc, by constructor <;> assumption⟩
    | _ => simp [ofExpr?] at h
  · rintro ⟨b, c, hb, hc, h⟩
    cases h with
    | add h | sub h => simp [ofExpr?, hb, hc, h]
    | mulLeft hk h => simp [ofExpr?, hb, hc, hk, h]
    | mulRight hnone hk h => simp [ofExpr?, hb, hc, hnone, hk, h]
    | div hk hm h | mod hk hm h => simp [ofExpr?, hb, hc, hk, hm, h]

theorem Composed.nodup (h : Composed op a b c) (ha : (a.terms.map (·.1)).Nodup)
    (hb : (b.terms.map (·.1)).Nodup) :
    (c.terms.map (·.1)).Nodup ∧
      ∀ v ∈ c.terms.map (·.1), v ∈ a.terms.map (·.1) ∨ v ∈ b.terms.map (·.1) := by
  cases h with
  | add h => exact ⟨(add?_eq_some h).1 ha, (add?_eq_some h).2.1⟩
  | sub h => exact ⟨(sub?_eq_some h).1 ha, (sub?_eq_some h).2.1⟩
  | mulLeft _ h =>
    have hsub := (scale?_eq_some h).1
    exact ⟨hb.sublist hsub, fun v hv => .inr (hsub.subset hv)⟩
  | mulRight _ _ h =>
    have hsub := (scale?_eq_some h).1
    exact ⟨ha.sublist hsub, fun v hv => .inl (hsub.subset hv)⟩
  | div | mod => simp [ofWord]

/-- The form of an operation has the exact result as its value. -/
theorem Composed.value (h : Composed op a b c) (σ : String → Int) :
    op.onInts? (a.value σ) (b.value σ) = some (c.value σ) := by
  cases h with
  | add h => rw [(add?_eq_some h).2.2, Op.onInts?]
  | sub h => rw [(sub?_eq_some h).2.2, Op.onInts?]
  | mulLeft hk h => rw [(scale?_eq_some h).2, value_of_constant? hk, Op.onInts?]
  | mulRight _ hk h => rw [(scale?_eq_some h).2, value_of_constant? hk, Op.onInts?, Int.mul_comm]
  | div hk hm h =>
    rw [value_of_constant? hk, value_of_constant? hm, value_ofWord, Op.onInts?, Op.quotient?_toInt h]
  | mod hk hm h =>
    obtain ⟨⟨q, hq⟩, hmod⟩ := Word.mod?_eq_some.1 h
    rw [value_of_constant? hk, value_of_constant? hm, value_ofWord, Op.onInts?, Op.quotient?_toInt hq,
      hmod]
    rfl

/-- Every form of an expression names each variable once, and only variables of the expression. -/
theorem ofExpr?_nodup (h : ofExpr? e = some a) :
    (a.terms.map (·.1)).Nodup ∧ ∀ v ∈ a.terms.map (·.1), v ∈ e.vars := by
  induction e generalizing a with
  | var v =>
    cases h
    simp [ofVar]
  | int n =>
    cases h
    simp [ofWord]
  | neg e ih =>
    obtain ⟨b, hb, h⟩ := ofExpr?_neg.1 h
    obtain ⟨hnodup, hmem⟩ := ih hb
    have hsub := (scale?_eq_some h).1
    exact ⟨hnodup.sublist hsub, fun v hv => by simpa using hmem v (hsub.subset hv)⟩
  | binary op l r ihl ihr =>
    obtain ⟨b, c, hb, hc, h⟩ := ofExpr?_binary.1 h
    obtain ⟨hnodup, hmem⟩ := h.nodup (ihl hb).1 (ihr hc).1
    refine ⟨hnodup, fun v hv => ?_⟩
    rw [Expr.vars_binary, List.mem_append]
    exact (hmem v hv).imp ((ihl hb).2 v) ((ihr hc).2 v)
  | float x | read b idx => cases h

/-- An expression with a form has a value wherever its variables have. -/
theorem wide?_of_ofExpr? {env : Env} (h : ofExpr? e = some a)
    (hvars : ∀ v ∈ e.vars, (env.value? v).isSome) : env.wide? e = some (a.value env.valuation) := by
  induction e generalizing a with
  | var v =>
    cases h
    obtain ⟨n, hn⟩ := Option.isSome_iff_exists.1 (hvars v (by simp))
    rw [Env.wide?, hn, value_ofVar, Env.valuation_of_value? hn]
    rfl
  | int n =>
    cases h
    rw [Env.wide?, value_ofWord]
  | neg e ih =>
    obtain ⟨b, hb, h⟩ := ofExpr?_neg.1 h
    refine Env.wide?_neg_eq_some.2 ⟨_, ih hb fun v hv => hvars v (by simpa using hv), ?_⟩
    rw [(scale?_eq_some h).2, Word.toInt_neg_one, Int.neg_mul, Int.one_mul]
  | binary op l r ihl ihr =>
    obtain ⟨b, c, hb, hc, h⟩ := ofExpr?_binary.1 h
    exact Env.wide?_binary_eq_some.2 ⟨_, _, ihl hb fun v hv => hvars v (by simp [hv]),
      ihr hc fun v hv => hvars v (by simp [hv]), h.value _⟩
  | float x | read b idx => cases h

/-- **Forms are exact.** The form of an expression has the expression's unbounded value. -/
theorem ofExpr?_value {env : Env} {z : Int} (h : ofExpr? e = some a) (hz : env.wide? e = some z) :
    a.value env.valuation = z :=
  Option.mem_unique (wide?_of_ofExpr? h (Env.value?_isSome_of_wide? hz)) hz

/-! ## Coefficients -/

theorem sumOf_insertTerm (σ : String → Int) (t : String × Word) (l : List (String × Word)) :
    sumOf σ (insertTerm t l) = t.2.toInt * σ t.1 + sumOf σ l := by
  induction l with
  | nil => simp [insertTerm]
  | cons u l ih =>
    unfold insertTerm
    split
    · simp
    · rw [sumOf_cons, ih, sumOf_cons]
      ring

theorem insertTerm_perm (t : String × Word) (l : List (String × Word)) :
    (insertTerm t l).Perm (t :: l) := by
  induction l with
  | nil => exact .refl _
  | cons u l ih =>
    unfold insertTerm
    split
    · exact .refl _
    · exact (ih.cons u).trans (.swap t u l)

theorem coefficients_perm (a : Affine) : a.coefficients.Perm (a.terms.filter (·.2 != 0)) := by
  unfold coefficients
  induction a.terms.filter (·.2 != 0) with
  | nil => exact .refl _
  | cons t l ih => exact (insertTerm_perm t _).trans (ih.cons t)

theorem sumOf_coefficients (σ : String → Int) (a : Affine) :
    sumOf σ a.coefficients = sumOf σ a.terms := by
  rw [← sumOf_filter σ a.terms]
  unfold coefficients
  induction a.terms.filter (·.2 != 0) with
  | nil => rfl
  | cons t l ih => rw [List.foldr_cons, sumOf_insertTerm, ih, sumOf_cons]

/-- Forms that are equal up to the order of their terms have the same value everywhere. -/
theorem value_of_same (h : a.same b = true) (σ : String → Int) : a.value σ = b.value σ := by
  simp only [same, Bool.and_eq_true, beq_iff_eq] at h
  unfold value
  rw [← sumOf_coefficients, ← sumOf_coefficients σ b, h.1, h.2]

theorem coefficients_nodup (h : (a.terms.map (·.1)).Nodup) : (a.coefficients.map (·.1)).Nodup := by
  have hsub : ((a.terms.filter (·.2 != 0)).map (·.1)).Sublist (a.terms.map (·.1)) :=
    List.Sublist.map _ List.filter_sublist
  exact ((a.coefficients_perm.map _).nodup_iff).2 (h.sublist hsub)

theorem coefficients_vars (h : ofExpr? e = some a) :
    ∀ v ∈ a.coefficients.map (·.1), v ∈ e.vars := by
  intro v hv
  refine (ofExpr?_nodup h).2 v ?_
  have hmem := (a.coefficients_perm.map (·.1)).mem_iff.1 hv
  exact (List.Sublist.map _ List.filter_sublist).subset hmem

/-! ### The least value -/

/-- Where all coefficients are at least 0 and all variables at least 1, the value is least where the
variables are 1. -/
theorem range?_le_value {lo hi : Word} (hrange : a.range? (fun _ => some (1, 1)) = some (lo, hi))
    (ha : ∀ t ∈ a.coefficients, 0 ≤ t.2.toInt ∧ 1 ≤ σ t.1) : lo.toInt ≤ a.value σ := by
  rw [value, ← sumOf_coefficients]
  unfold range? at hrange
  -- the fold may start anywhere
  change lo.toInt ≤ (a.constant, a.constant).1.toInt + _
  generalize (a.constant, a.constant) = start at hrange ⊢
  generalize a.coefficients = l at hrange ha ⊢
  induction l generalizing start with
  | nil =>
    cases hrange
    simp
  | cons t l ih =>
    obtain ⟨x, y⟩ := start
    obtain ⟨v, c⟩ := t
    rw [List.foldlM_cons, option_bind_eq_some] at hrange
    obtain ⟨r, hr, hrange⟩ := hrange
    simp only [ite_self, Option.bind_eq_bind, Option.bind_some, Option.bind_eq_some_iff,
      Option.pure_def, Option.some.injEq] at hr
    obtain ⟨m, hm, x', hx', m', hm', y', hy', rfl⟩ := hr
    have hrest := ih (x', y') hrange fun t ht => ha t (.tail _ ht)
    dsimp only at hrest ⊢
    obtain ⟨hc, hv⟩ := ha (v, c) (.head _)
    rw [Word.mul?_eq_some, show (1 : Word).toInt = 1 from rfl, Int.mul_one] at hm
    rw [Word.add?_eq_some, hm] at hx'
    have hterm : c.toInt * 1 ≤ c.toInt * σ v := Int.mul_le_mul_of_nonneg_left hv hc
    have hsum : sumOf σ ((v, c) :: l) = c.toInt * σ v + sumOf σ l := sumOf_cons σ _ _
    omega

/-! ### The canonical expression -/

section toExpr

variable {env : Env} {e : Expr} {z : Int} {v : String} {n : Word}

/-- The product of a coefficient and a variable, where 1 may be left out. -/
inductive Product (v : String) : Word → Expr → Prop
  | one : Product v 1 (.var v)
  | times (c : Word) : Product v c (.mul (.int c) (.var v))

/-- How the sum of terms and a constant may be written. What comes after the first term is added, or
its negation is subtracted. -/
inductive Spells : List (String × Word) → Word → Expr → Prop
  | constant (k : Word) : Spells [] k (.int k)
  | lead {v : String} {c : Word} {t : Expr} : Product v c t → Spells [(v, c)] 0 t
  | negated (v : String) : Spells [(v, -1)] 0 (.neg (.var v))
  | plus {ts : List (String × Word)} {e t : Expr} {v : String} {c : Word} :
    Spells ts 0 e → Product v c t → Spells (ts ++ [(v, c)]) 0 (.add e t)
  | minus {ts : List (String × Word)} {e t : Expr} {v : String} {c m : Word} :
    Spells ts 0 e → Product v m t → c.toInt = -m.toInt → Spells (ts ++ [(v, c)]) 0 (.sub e t)
  | plusConstant {ts : List (String × Word)} {e : Expr} (k : Word) :
    Spells ts 0 e → Spells ts k (.add e (.int k))
  | minusConstant {ts : List (String × Word)} {e : Expr} {k m : Word} :
    Spells ts 0 e → k.toInt = -m.toInt → Spells ts k (.sub e (.int m))

theorem spells_leadingTerm (v : String) (c : Word) : Spells [(v, c)] 0 (leadingTerm v c) := by
  unfold leadingTerm
  split_ifs with h h
  · exact h ▸ .lead .one
  · exact h ▸ .negated v
  · exact .lead (.times c)

theorem spells_appendTerm {ts : List (String × Word)} (h : Spells ts 0 e) (v : String) (c : Word) :
    Spells (ts ++ [(v, c)]) 0 (appendTerm e v c) := by
  unfold appendTerm
  split
  · exact h.plus (.times c)
  next m hm =>
    have habs := Word.abs?_eq_some.1 hm
    -- the term without its sign
    have hterm : Product v m (if m = 1 then .var v else .mul (.int m) (.var v)) := by
      split_ifs with h1
      · exact h1 ▸ .one
      · exact .times m
    simp only
    split
    next hneg =>
      have hlt : c.toInt < 0 := by simpa [Int64.lt_iff_toInt_lt] using hneg
      exact h.minus hterm (by omega)
    next hneg =>
      have hle : 0 ≤ c.toInt := by simpa [Int64.lt_iff_toInt_lt] using hneg
      obtain rfl : m = c := Int64.toInt_inj.1 (by omega)
      exact h.plus hterm

theorem spells_appendConstant {ts : List (String × Word)} (h : Spells ts 0 e) (k : Word) :
    Spells ts k (appendConstant e k) := by
  unfold appendConstant
  split
  · exact h.plusConstant k
  next hpos =>
    split
    next hneg =>
      split
      next m hm => exact h.minusConstant (by rw [Word.neg?_eq_some.1 hm, Int.neg_neg])
      · exact h.plusConstant k
    next hneg =>
      obtain rfl : k = 0 := Word.toInt_eq_zero.1 (by
        simp only [Int64.lt_iff_toInt_lt, Int64.toInt_zero] at hpos hneg
        omega)
      exact h

theorem spells_foldl (v : String) (c : Word) (rest : List (String × Word)) :
    Spells ((v, c) :: rest) 0
      (rest.foldl (fun e (v, c) => appendTerm e v c) (leadingTerm v c)) := by
  induction rest using List.reverseRecOn with
  | nil => exact spells_leadingTerm v c
  | append_singleton rest u ih =>
    rw [List.foldl_concat, ← List.cons_append]
    exact spells_appendTerm ih u.1 u.2

/-- **The canonical expression is one way to write the form.** -/
theorem spells_toExpr (a : Affine) :
    Spells (a.terms.filter (·.2 != 0)) a.constant a.toExpr := by
  unfold toExpr
  split
  next hnil => exact hnil ▸ .constant a.constant
  next v c rest hcons =>
    rw [hcons]
    exact spells_appendConstant (spells_foldl v c rest) a.constant

theorem Product.wide? {c : Word} (h : Product v c e) (hv : env.value? v = some n) :
    env.wide? e = some (c.toInt * n.toInt) := by
  have hvar : env.wide? (.var v) = some n.toInt := by rw [Env.wide?, hv]; rfl
  cases h with
  | one => rw [hvar, Int64.toInt_one, Int.one_mul]
  | times => exact Env.wide?_binary_eq_some.2 ⟨_, _, rfl, hvar, rfl⟩

theorem Spells.wide? {ts : List (String × Word)} {k : Word} (h : Spells ts k e)
    (hts : ∀ t ∈ ts, (env.value? t.1).isSome) :
    env.wide? e = some (k.toInt + sumOf env.valuation ts) := by
  -- a term has its coefficient times the value of its variable
  have hterm : ∀ {v : String} {c : Word} {t : Expr}, (env.value? v).isSome → Product v c t →
      env.wide? t = some (c.toInt * env.valuation v) := by
    intro v c t hv ht
    obtain ⟨n, hn⟩ := Option.isSome_iff_exists.1 hv
    rw [ht.wide? hn, Env.valuation_of_value? hn]
  induction h with
  | constant k => simp [Env.wide?]
  | lead ht => simp [hterm (hts _ (.head _)) ht]
  | negated v =>
    refine Env.wide?_neg_eq_some.2 ⟨_, hterm (hts _ (.head _)) .one, ?_⟩
    simp
  | plus _ ht ih =>
    rw [List.forall_mem_append, List.forall_mem_singleton] at hts
    refine Env.wide?_binary_eq_some.2 ⟨_, _, ih hts.1, hterm hts.2 ht, ?_⟩
    simp [Op.onInts?, sumOf]
  | minus _ ht hc ih =>
    rw [List.forall_mem_append, List.forall_mem_singleton] at hts
    refine Env.wide?_binary_eq_some.2 ⟨_, _, ih hts.1, hterm hts.2 ht, ?_⟩
    simp [Op.onInts?, sumOf, hc, Int.sub_eq_add_neg]
  | plusConstant k _ ih =>
    refine Env.wide?_binary_eq_some.2 ⟨_, _, ih hts, rfl, ?_⟩
    simp [Op.onInts?, Int.add_comm]
  | minusConstant _ hk ih =>
    refine Env.wide?_binary_eq_some.2 ⟨_, _, ih hts, rfl, ?_⟩
    simp [Op.onInts?, hk, Int.sub_eq_add_neg, Int.add_comm]

/-- **The canonical expression has the value of the form.** -/
theorem wide?_toExpr {a : Affine} (h : ∀ v ∈ a.vars, (env.value? v).isSome) :
    env.wide? a.toExpr = some (a.value env.valuation) := by
  rw [value, ← sumOf_filter, a.spells_toExpr.wide? fun t ht => h t.1 (List.mem_map_of_mem ht)]

theorem Spells.vars {ts : List (String × Word)} {k : Word} (h : Spells ts k e) :
    e.vars = ts.map (·.1) := by
  have hterm : ∀ {v : String} {c : Word} {t : Expr}, Product v c t → t.vars = [v] := by
    rintro v c t (_ | _) <;> simp [Expr.mul]
  induction h with
  | constant | negated => simp
  | lead ht => simp [hterm ht]
  | plus _ ht ih | minus _ ht _ ih => simp [Expr.add, Expr.sub, ih, hterm ht]
  | plusConstant _ _ ih | minusConstant _ _ ih => simp [Expr.add, Expr.sub, ih]

/-- The canonical expression reads the variables that matter. -/
theorem vars_toExpr (a : Affine) : a.toExpr.vars = a.vars :=
  a.spells_toExpr.vars

theorem value_of_toExpr {a : Affine} (h : env.wide? a.toExpr = some z) :
    a.value env.valuation = z := by
  have hvalued := Env.value?_isSome_of_wide? h
  rw [vars_toExpr] at hvalued
  rw [wide?_toExpr hvalued] at h
  exact Option.some.inj h

end toExpr

end Affine

/-- A constant index expression has its constant as value. -/
theorem Expr.wide?_of_constant? {env : Env} {e : Expr} {k : Word} {z : Int}
    (h : e.constant? = some k) (hz : env.wide? e = some z) : z = k.toInt := by
  obtain ⟨a, ha, hk⟩ := Option.bind_eq_some_iff.1 h
  rw [← Affine.ofExpr?_value ha hz, Affine.value_of_constant? hk]

/-- Literals that are equal as numbers and yet differ are floats, which are no indices. -/
theorem Env.wide?_of_same (env : Env) {e e' : Expr} (h : e.same e' = true) :
    env.wide? e = env.wide? e' := by
  induction e generalizing e' with
  | binary op l r ihl ihr =>
    cases e' with
    | binary op' l' r' =>
      simp only [Expr.same, Bool.and_eq_true, beq_iff_eq] at h
      obtain ⟨⟨rfl, hl⟩, hr⟩ := h
      simp only [wide?, ihl hl, ihr hr]
    | _ => simp [Expr.same] at h
  | neg e ih =>
    cases e' with
    | neg e' => simp only [wide?, ih (by simpa [Expr.same] using h)]
    | _ => simp [Expr.same] at h
  | var v | int n => cases e' <;> simp_all [Expr.same]
  | float x | read b idx _ => cases e' <;> simp_all [Expr.same, wide?]

/-- Where all of their variables have values, expressions that are the same index have the same
value, if they have one. -/
theorem Env.wide?_eq_of_sameIndex {env : Env} {e e' : Expr} (h : e.sameIndex e' = true)
    (hv : ∀ v ∈ e.vars, (env.value? v).isSome) (hv' : ∀ v ∈ e'.vars, (env.value? v).isSome) :
    env.wide? e = env.wide? e' := by
  unfold Expr.sameIndex at h
  split at h
  next a a' ha ha' =>
    rw [Affine.wide?_of_ofExpr? ha hv, Affine.wide?_of_ofExpr? ha' hv', Affine.value_of_same h]
  · exact env.wide?_of_same h

theorem Env.wide?_of_sameIndex {env : Env} {e e' : Expr} (h : e.sameIndex e' = true) {z z' : Int}
    (hz : env.wide? e = some z) (hz' : env.wide? e' = some z') : z = z' := by
  rw [wide?_eq_of_sameIndex h (value?_isSome_of_wide? hz) (value?_isSome_of_wide? hz'), hz'] at hz
  exact (Option.some.inj hz).symm

/-- A bound that is positive for all sizes is at least 1. -/
theorem Expr.one_le_of_isPositive {sizes : List String} {e : Expr} (h : e.isPositive sizes = true)
    {env : Env} (hsizes : ∀ v ∈ sizes, ∀ n, env.value? v = some n → 1 ≤ n.toInt) {z : Int}
    (hz : env.wide? e = some z) : 1 ≤ z := by
  unfold isPositive at h
  split at h
  · cases h
  next a ha =>
    rw [Bool.and_eq_true, List.all_eq_true] at h
    obtain ⟨hall, hlo⟩ := h
    split at hlo
    next lo hi hrange =>
      have hone : 1 ≤ lo.toInt := by
        have := Int64.le_iff_toInt_le.1 (of_decide_eq_true hlo)
        rwa [show (1 : Word).toInt = 1 from rfl] at this
      refine hone.trans ?_
      rw [← Affine.ofExpr?_value ha hz]
      refine Affine.range?_le_value hrange fun t ht => ?_
      have hcoeff := hall t ht
      simp only [Bool.and_eq_true, List.contains_iff_mem, decide_eq_true_eq] at hcoeff
      obtain ⟨hmem, hc⟩ := hcoeff
      have hvar := Affine.coefficients_vars ha t.1 (List.mem_map.2 ⟨t, ht, rfl⟩)
      obtain ⟨n, hn⟩ := Option.isSome_iff_exists.1 (Env.value?_isSome_of_wide? hz t.1 hvar)
      rw [Env.valuation_of_value? hn]
      exact ⟨Int64.le_iff_toInt_le.1 hc, hsizes t.1 hmem n hn⟩
    · cases hlo

end LoopNest
