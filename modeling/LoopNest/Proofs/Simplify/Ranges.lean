import LoopNest.Proofs.Simplify.Index

/-!
# Guards decided from ranges

Sizes are at least 1 and loop variables are below the number of rounds of their loops
(`Ranges.Holds`). Then a guard that is decided from the ranges has that value
(`Ranges.Holds.decide`).
-/

namespace LoopNest

open Evaluator LoopNest.Affine

namespace Ranges

/-- The number is between the bounds that are known. -/
def Bounds (b : Option Word × Option Word) (z : Int) : Prop :=
  (∀ lo, b.1 = some lo → lo.toInt ≤ z) ∧ ∀ hi, b.2 = some hi → z ≤ hi.toInt

/-- All variables are within their ranges. -/
def Holds (rs : Ranges) (env : Env) : Prop :=
  ∀ v n, env.value? v = some n → Bounds (rs.ofVar v) n.toInt

theorem ofVar_enter (rs : Ranges) (x v : String) (count : Option Word) :
    (rs.enter (x, count)).ofVar v = if v = x then (some 0, count.map (· - 1)) else rs.ofVar v := by
  unfold ofVar enter
  rw [List.lookup_cons]
  by_cases h : v = x
  · simp [h]
  · have hb : (v == x) = false := by simpa using h
    simp only [hb, h, if_false]

variable {rs : Ranges} {env : Env} {t b : Bool}

/-- A round of a loop. -/
theorem Holds.bind_index (h : rs.Holds env) (x : String) {k : Word} {count : Option Word}
    (hk : 0 ≤ k.toInt) (hcount : ∀ m, count = some m → k.toInt ≤ (m - 1).toInt) :
    (rs.enter (x, count)).Holds (env.bind x (.index k)) := by
  intro v n hn
  rw [ofVar_enter]
  obtain ⟨hv, rfl⟩ | ⟨hv, hn⟩ := Env.value?_bind_index.1 hn
  · rw [if_pos hv]
    refine ⟨fun lo hlo => ?_, fun hi hhi => ?_⟩
    · rw [← Option.some.inj hlo]
      exact hk
    · obtain ⟨m, hm, rfl⟩ := Option.map_eq_some_iff.1 hhi
      exact hcount m hm
  · rw [if_neg hv]
    exact h v n hn

theorem Holds.bind_buffer (h : rs.Holds env) (x : String) (w : View) :
    rs.Holds (env.bind x (.buffer w)) := fun v n hn => h v n (Env.value?_bind_buffer.1 hn).2

/-- Bounds for `c * y + x`, from those of `x` and of `c * y`. -/
theorem Bounds.extend {c : Word} {x x' y y' : Option Word} {z w : Int} (h : Bounds (x, x') z)
    (hlo : ∀ n, y = some n → c.toInt * n.toInt ≤ w)
    (hhi : ∀ n, y' = some n → w ≤ c.toInt * n.toInt) :
    Bounds (do let x ← x; Word.add? (← Word.mul? c (← y)) x,
      do let x ← x'; Word.add? (← Word.mul? c (← y')) x) (z + w) := by
  simp only [Bounds, option_bind_eq_some, Word.add?_eq_some, Word.mul?_eq_some]
  constructor
  · rintro s ⟨a, ha, b, hb, m, hm, hs⟩
    have := h.1 a ha
    have := hlo b hb
    omega
  · rintro s ⟨a, ha, b, hb, m, hm, hs⟩
    have := h.2 a ha
    have := hhi b hb
    omega

/-- **The range of a form holds its value.** -/
theorem Holds.ofAffine (h : rs.Holds env) {a : Affine}
    (hvalued : ∀ v ∈ a.terms.map (·.1), (env.value? v).isSome) :
    Bounds (rs.ofAffine a) (a.value env.valuation) := by
  have hcoeff : ∀ t ∈ a.coefficients, (env.value? t.1).isSome := fun t ht =>
    hvalued t.1 (List.mem_map_of_mem (List.mem_filter.1 ((a.coefficients_perm.mem_iff).1 ht)).1)
  have hstart : Bounds (some a.constant, some a.constant) a.constant.toInt := by
    constructor <;> rintro _ ⟨⟩ <;> exact Int.le_refl _
  unfold Ranges.ofAffine
  rw [Affine.value, ← sumOf_coefficients]
  -- the fold may start anywhere
  generalize (some a.constant, some a.constant) = acc at hstart ⊢
  generalize a.constant.toInt = z at hstart ⊢
  generalize a.coefficients = l at hcoeff ⊢
  induction l generalizing acc z with
  | nil => rwa [List.foldl_nil, sumOf_nil, Int.add_zero]
  | cons t l ih =>
    obtain ⟨lo, hi⟩ := acc
    obtain ⟨v, c⟩ := t
    obtain ⟨n, hn⟩ := Option.isSome_iff_exists.1 (hcoeff (v, c) (.head _))
    have hvar := h v n hn
    rw [List.foldl_cons, sumOf_cons, Env.valuation_of_value? hn, ← Int.add_assoc]
    refine ih _ _ ?_ fun u hu => hcoeff u (.tail _ hu)
    by_cases hc : 0 < c
    · have hpos : 0 ≤ c.toInt := by
        have := Int64.lt_iff_toInt_lt.1 hc
        rw [Int64.toInt_zero] at this
        omega
      simp only [hc, if_true]
      exact hstart.extend (fun y hy => Int.mul_le_mul_of_nonneg_left (hvar.1 y hy) hpos)
        fun y hy => Int.mul_le_mul_of_nonneg_left (hvar.2 y hy) hpos
    · have hneg : c.toInt ≤ 0 := by
        have := mt Int64.lt_iff_toInt_lt.2 hc
        rw [Int64.toInt_zero] at this
        omega
      simp only [hc, if_false]
      -- a factor that is not positive turns the bounds around
      exact hstart.extend (fun y hy => Int.mul_le_mul_of_nonpos_left hneg (hvar.2 y hy))
        fun y hy => Int.mul_le_mul_of_nonpos_left hneg (hvar.1 y hy)

/-- Two tests in turn, one for each answer. -/
theorem eq_of_decided {P : Prop} {p q : Bool} (ht : t = true ↔ P) (hp : p = true → P)
    (hq : q = true → ¬ P) (hb : (if p then some true else if q then some false else none) = some b) :
    t = b := by
  split at hb
  next h => rw [← Option.some.inj hb, ht.2 (hp h)]
  · split at hb
    next h => rw [← Option.some.inj hb, Bool.eq_false_iff, ne_eq, ht]; exact hq h
    · cases hb

theorem decideComparison_sound {op : Op} {lo hi : Option Word} {x y : Word}
    (hbounds : Bounds (lo, hi) (x.toInt - y.toInt)) (hb : decideComparison op lo hi = some b)
    (ht : op.compare? x y = some t) : t = b := by
  have hbelow : ∀ {k : Word}, hi.any (· < k) = true → x.toInt - y.toInt < k.toInt := by
    intro k hk
    obtain ⟨h, rfl, hlt⟩ := (Option.any_eq_true _ _).1 hk
    have := hbounds.2 h rfl
    have := Int64.lt_iff_toInt_lt.1 (of_decide_eq_true hlt)
    omega
  have habove : ∀ {k : Word}, lo.any (k < ·) = true → k.toInt < x.toInt - y.toInt := by
    intro k hk
    obtain ⟨l, rfl, hlt⟩ := (Option.any_eq_true _ _).1 hk
    have := hbounds.1 l rfl
    have := Int64.lt_iff_toInt_lt.1 (of_decide_eq_true hlt)
    omega
  -- every comparison is decided by those of the difference with -1, 0 and 1
  have hneg : (-1 : Word).toInt = -1 := rfl
  have hzero : (0 : Word).toInt = 0 := rfl
  have hone : (1 : Word).toInt = 1 := rfl
  cases op with
  | lt | le =>
    obtain rfl := Option.some.inj ht
    rw [decideComparison] at hb
    refine eq_of_decided decide_eq_true_iff (fun h => ?_) (fun h => ?_) hb <;>
      simp only [Int64.lt_iff_toInt_lt, Int64.le_iff_toInt_le]
    · have := hbelow h
      omega
    · have := habove h
      omega
  | gt | ge =>
    obtain rfl := Option.some.inj ht
    rw [decideComparison] at hb
    refine eq_of_decided decide_eq_true_iff (fun h => ?_) (fun h => ?_) hb <;>
      simp only [Int64.lt_iff_toInt_lt, Int64.le_iff_toInt_le]
    · have := habove h
      omega
    · have := hbelow h
      omega
  | eq =>
    obtain rfl := Option.some.inj ht
    rw [decideComparison] at hb
    refine eq_of_decided (decide_eq_true_iff.trans Int64.toInt_inj.symm) ?_ ?_ hb
    · intro h
      simp only [Bool.and_eq_true, beq_iff_eq] at h
      have := hbounds.1 0 h.1
      have := hbounds.2 0 h.2
      omega
    · intro h
      rcases Bool.or_eq_true_iff.1 h with h | h
      · have := habove h
        omega
      · have := hbelow h
        omega
  | _ => cases ht

/-- **A decided guard has the decided value.** -/
theorem Holds.decide (h : rs.Holds env) {e : Expr} (hb : rs.decide e = some b)
    (ht : wide.condition env e = some t) : t = b := by
  fun_induction wide.condition env e generalizing b t with
  | case1 l r ihl ihr =>
    simp only [option_bind_eq_some] at ht
    obtain ⟨x, hx, ht⟩ := ht
    rw [Ranges.decide] at hb
    cases x with
    | false =>
      cases ht
      cases hl : rs.decide l with
      | none =>
        cases hr : rs.decide r with
        | none => simp [hl, hr] at hb
        | some y => cases y <;> simp_all
      | some y => simp_all
    | true =>
      simp only [if_true] at ht
      cases hl : rs.decide l with
      | none =>
        cases hr : rs.decide r with
        | none => simp [hl, hr] at hb
        | some y => cases y <;> simp_all
      | some y =>
        obtain rfl := ihl hl hx
        cases hr : rs.decide r with
        | none => simp [hl, hr] at hb
        | some w => cases w <;> simp_all
  | case2 op l r hop =>
    simp only [option_bind_eq_some] at ht
    obtain ⟨x, hx, y, hy, ht⟩ := ht
    rw [Ranges.decide.eq_2 _ _ _ _ hop] at hb
    simp only [option_bind_eq_some] at hb
    obtain ⟨a, ha, a', ha', d, hd, hb⟩ := hb
    have hvalued : ∀ v ∈ d.terms.map (·.1), (env.value? v).isSome := fun v hv => by
      obtain hv | hv := (sub?_eq_some hd).2.1 v hv
      · exact wide.value?_isSome hx v ((ofExpr?_nodup ha).2 v hv)
      · exact wide.value?_isSome hy v ((ofExpr?_nodup ha').2 v hv)
    have hbounds := h.ofAffine hvalued
    rw [(sub?_eq_some hd).2.2, ofExpr?_value ha (wide_eval.1 hx),
      ofExpr?_value ha' (wide_eval.1 hy)] at hbounds
    exact decideComparison_sound hbounds hb ht
  | case3 e h1 h2 => cases ht

end Ranges

end LoopNest
