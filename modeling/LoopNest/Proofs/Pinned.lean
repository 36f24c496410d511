import LoopNest.Dependence
import LoopNest.Proofs.AffineValue

/-!
# Pinned variables agree

Two assignments that differ only on loop variables, that stay within the ranges of the loops, and
under which two accesses have the same indices, give the same value to every variable the two
accesses pin (`Access.pinRounds_agree`).

For one form this is an estimate: if all other variables together can change the form by less than
the coefficient of a variable, then equal values of the form leave no room for two values of that
variable.
-/

namespace LoopNest

variable {n c : Word} {δ σ τ : String → Int} {l : List (String × Word)}

theorem Word.one_le_iff : 1 ≤ n ↔ 1 ≤ n.toInt := by
  rw [Int64.le_iff_toInt_le]
  have h1 : Int64.toInt 1 = 1 := by decide
  rw [h1]

theorem Word.toInt_le_max (a b : Word) :
    a.toInt ≤ (max a b).toInt ∧ b.toInt ≤ (max a b).toInt := by
  have hdef : max a b = if a ≤ b then b else a := rfl
  rw [hdef]
  split
  next hab => exact ⟨Int64.le_iff_toInt_le.1 hab, le_refl _⟩
  next hab =>
    rw [Int64.le_iff_toInt_le] at hab
    exact ⟨le_refl _, by omega⟩

namespace Affine

theorem sumOf_sub (σ τ : String → Int) (l : List (String × Word)) :
    sumOf (fun u => σ u - τ u) l = sumOf σ l - sumOf τ l := by
  induction l with
  | nil => rfl
  | cons t l ih =>
    rw [sumOf_cons, sumOf_cons, sumOf_cons, ih]
    ring

/-- The term of one variable apart from the others. -/
theorem sumOf_eq_add_of_mem {v : String} (hnodup : (l.map (·.1)).Nodup) (hmem : (v, c) ∈ l) :
    sumOf δ l = c.toInt * δ v + sumOf δ (l.filter (·.1 != v)) := by
  induction l with
  | nil => cases hmem
  | cons t l ih =>
    obtain ⟨hnot, hnodup⟩ := List.nodup_cons.1 hnodup
    obtain rfl | hmem := List.mem_cons.1 hmem
    · have hkeep : l.filter (·.1 != v) = l := by
        rw [List.filter_eq_self]
        intro u hu
        have hne : u.1 ≠ v := fun h => hnot (List.mem_map.2 ⟨u, hu, h⟩)
        simp [hne]
      simp [hkeep]
    · have hne : t.1 ≠ v := fun h => hnot (List.mem_map.2 ⟨(v, c), hmem, h.symm⟩)
      rw [List.filter_cons_of_pos (by simp [hne]), sumOf_cons, sumOf_cons, ih hnodup hmem]
      ring

end Affine

namespace Access

/-! ## Trip counts -/

variable {loops : List Enclosing} {v : String} {pinned : List String}

theorem tripCount?_eq_none : tripCount? loops v = none ↔ v ∉ loops.map (·.1) := by
  unfold tripCount?
  split
  · rename_i h
    rw [List.filter_eq_nil_iff] at h
    simp only [List.mem_map, not_exists, not_and, true_iff]
    intro l hl hv
    simpa [hv] using h l hl
  · rename_i first rest h
    have hmem : first ∈ loops.filter (·.1 = v) := by simp [h]
    rw [List.mem_filter] at hmem
    simp only [decide_eq_true_eq] at hmem
    simp only [reduceCtorEq, List.mem_map, not_exists, not_and, false_iff, not_forall]
    exact ⟨first, hmem.1, fun h => h hmem.2⟩

/-- A largest count is found where all counts are known, and is at least each of them. -/
theorem le_of_foldl_max {loops : List Enclosing} {acc : Option Word}
    (h : loops.foldl (fun acc x => do return max (← acc) (← x.2)) acc = some n)
    {count : Option Word} (hc : count = acc ∨ ∃ v, (v, count) ∈ loops) :
    ∃ m, count = some m ∧ m.toInt ≤ n.toInt := by
  induction loops generalizing acc count with
  | nil =>
    obtain rfl | ⟨v, hv⟩ := hc
    · exact ⟨n, h, le_refl _⟩
    · cases hv
  | cons x loops ih =>
    rw [List.foldl_cons] at h
    obtain ⟨k, hk, hkn⟩ := ih h (.inl rfl)
    simp only [option_bind_eq_some, Option.pure_def, Option.some.injEq] at hk
    obtain ⟨a, rfl, b, hb, rfl⟩ := hk
    have hmax := Word.toInt_le_max a b
    obtain rfl | ⟨v, hv⟩ := hc
    · exact ⟨a, rfl, by omega⟩
    · obtain rfl | hv := List.mem_cons.1 hv
      · exact ⟨b, hb, by omega⟩
      · exact ih h (.inr ⟨v, hv⟩)

/-- The trip count of a variable bounds all loops over it. -/
theorem le_of_tripCount? (h : tripCount? loops v = some (some n)) {count : Option Word}
    (hmem : (v, count) ∈ loops) : ∃ m, count = some m ∧ m.toInt ≤ n.toInt := by
  unfold tripCount? at h
  split at h
  · cases h
  next first rest hfilter =>
    have hmem' : (v, count) ∈ loops.filter (·.1 = v) := by simp [List.mem_filter, hmem]
    rw [hfilter] at hmem'
    refine le_of_foldl_max (Option.some.inj h) ?_
    obtain hm | hm := List.mem_cons.1 hmem'
    · exact .inl (congrArg Prod.snd hm)
    · exact .inr ⟨v, hm⟩

/-! ## The estimate -/

/-- One step of `spread?`. -/
def spreadStep (loops : List Enclosing) (pinned : List String) (v : String) (sum : Word)
    (t : String × Word) : Option Word :=
  if t.1 = v ∨ pinned.contains t.1 then some sum
  else
    match tripCount? loops t.1 with
    | none => some sum
    | some none => none
    | some (some n) => do
      let steps := if 1 ≤ n then n - 1 else 0
      Word.add? sum (← Word.mul? (← Word.abs? t.2) steps)

theorem spread?_eq (loops : List Enclosing) (form : Affine) (pinned : List String) (v : String) :
    spread? loops form pinned v = form.coefficients.foldlM (spreadStep loops pinned v) 0 := rfl

theorem spreadStep_eq_some {u : String} {d s s' : Word}
    (h : spreadStep loops pinned v s (u, d) = some s') :
    (s' = s ∧ (u = v ∨ u ∈ pinned ∨ tripCount? loops u = none)) ∨
      ∃ n, tripCount? loops u = some (some n) ∧
        (1 ≤ n.toInt → s'.toInt = s.toInt + d.toInt.natAbs * (n.toInt - 1)) := by
  unfold spreadStep at h
  by_cases hskip : u = v ∨ u ∈ pinned
  · simp only [List.contains_iff_mem, hskip, if_true, Option.some.injEq] at h
    exact .inl ⟨h.symm, hskip.imp_right .inl⟩
  · simp only [List.contains_iff_mem, hskip, if_false] at h
    split at h
    · rename_i hnone
      exact .inl ⟨(Option.some.inj h).symm, .inr (.inr hnone)⟩
    · cases h
    · rename_i n hn
      simp only [option_bind_eq_some] at h
      obtain ⟨a, ha, m, hm, hs⟩ := h
      refine .inr ⟨n, hn, fun hone => ?_⟩
      rw [Word.add?_eq_some.1 hs, Word.mul?_eq_some.1 hm, Word.abs?_eq_some.1 ha,
        if_pos (Word.one_le_iff.2 hone), Word.toInt_sub_one hone]

/-- What the variables of a form other than `v`, and not pinned, add up to. -/
theorem natAbs_le_spread {s₀ s : Word}
    (hzero : ∀ u d, (u, d) ∈ l → u ∈ pinned ∨ tripCount? loops u = none → δ u = 0)
    (hrange : ∀ u d, (u, d) ∈ l → ∀ n, tripCount? loops u = some (some n) →
      (δ u).natAbs + 1 ≤ n.toInt) (h : l.foldlM (spreadStep loops pinned v) s₀ = some s) :
    ((Affine.sumOf δ (l.filter (·.1 != v))).natAbs : Int) ≤ s.toInt - s₀.toInt := by
  induction l generalizing s₀ with
  | nil =>
    cases h
    simp
  | cons t l ih =>
    obtain ⟨u, d⟩ := t
    simp only [List.foldlM_cons, option_bind_eq_some] at h
    obtain ⟨s₁, hstep, h⟩ := h
    have hrest := ih (fun w e hw => hzero w e (.tail _ hw))
      (fun w e hw => hrange w e (.tail _ hw)) h
    by_cases huv : u = v
    · rw [List.filter_cons_of_neg (by simp [huv])]
      obtain ⟨rfl, -⟩ | ⟨n, hn, hs⟩ := spreadStep_eq_some hstep
      · exact hrest
      · simp only [spreadStep, huv, true_or, if_true, Option.some.injEq] at hstep
        exact hstep ▸ hrest
    · rw [List.filter_cons_of_pos (by simp [huv])]
      simp only [Affine.sumOf_cons]
      obtain ⟨rfl, hu⟩ | ⟨n, hn, hs⟩ := spreadStep_eq_some hstep
      · -- a variable that does not change adds nothing
        rw [hzero u d (.head _) (hu.resolve_left huv), mul_zero, zero_add]
        exact hrest
      · have hu := hrange u d (.head _) n hn
        rw [hs (by omega)] at hrest
        have hprod : ((d.toInt * δ u).natAbs : Int) ≤ d.toInt.natAbs * (n.toInt - 1) := by
          rw [Int.natAbs_mul, Nat.cast_mul]
          exact Int.mul_le_mul_of_nonneg_left (by omega) (by omega)
        have htri := Int.natAbs_add_le (d.toInt * δ u) (Affine.sumOf δ (l.filter (·.1 != v)))
        omega

/-- A form that two assignments give the same value. Of its variables they may differ on loop
variables only, which are within the ranges of their loops. -/
structure Level (loops : List Enclosing) (σ τ : String → Int) (form : Affine) : Prop where
  nodup : (form.terms.map (·.1)).Nodup
  value : form.value σ = form.value τ
  free : ∀ u d, (u, d) ∈ form.coefficients → tripCount? loops u = none → σ u = τ u
  range : ∀ u d, (u, d) ∈ form.coefficients → ∀ n, tripCount? loops u = some (some n) →
    (0 ≤ σ u ∧ σ u < n.toInt) ∧ 0 ≤ τ u ∧ τ u < n.toInt

/-- A form that pins a variable leaves no room for two values of it. -/
theorem Level.eq_of_pins {form : Affine} (hlevel : Level loops σ τ form)
    (hmem : (v, c) ∈ form.coefficients) (hpinned : ∀ u ∈ pinned, σ u = τ u)
    (h : pins loops form pinned v c = true) : σ v = τ v := by
  obtain ⟨hnodup, hvalue, hfree, hrange⟩ := hlevel
  simp only [pins, Bool.and_eq_true] at h
  obtain ⟨-, h⟩ := h
  split at h
  · rename_i s a hs ha
    rw [spread?_eq] at hs
    have hlt : s.toInt < c.toInt.natAbs := by
      rw [← Word.abs?_eq_some.1 ha]
      exact Int64.lt_iff_toInt_lt.1 (by simpa using h)
    have hbound := natAbs_le_spread (δ := fun u => σ u - τ u)
      (fun u d hu hz => by
        have : σ u = τ u := hz.elim (hpinned u) (hfree u d hu)
        omega)
      (fun u d hu n hn => by
        have := hrange u d hu n hn
        omega) hs
    have hsum : Affine.sumOf (fun u => σ u - τ u) form.coefficients = 0 := by
      rw [Affine.sumOf_sub, Affine.sumOf_coefficients, Affine.sumOf_coefficients]
      simp only [Affine.value] at hvalue
      omega
    rw [Affine.sumOf_eq_add_of_mem (Affine.coefficients_nodup hnodup) hmem] at hsum
    have hz : Int64.toInt 0 = 0 := by decide
    -- the coefficient times the difference is smaller than the coefficient
    have hprod : (c.toInt * (σ v - τ v)).natAbs < c.toInt.natAbs := by omega
    rw [Int.natAbs_mul] at hprod
    have hdiff : (σ v - τ v).natAbs < 1 := by
      by_contra hge
      have := Nat.le_mul_of_pos_right c.toInt.natAbs (Nat.lt_of_lt_of_le Nat.zero_lt_one
        (Nat.le_of_not_lt hge))
      omega
    omega
  · cases h

/-- **Pinned variables agree**, and they are variables of the forms. -/
theorem pinRounds_agree {forms : List Affine} (hlevel : ∀ form ∈ forms, Level loops σ τ form)
    (n : Nat) :
    ∀ v ∈ pinRounds loops forms n, σ v = τ v ∧ ∃ form ∈ forms, v ∈ form.coefficients.map (·.1) := by
  have hround : ∀ pinned : List String,
      (∀ v ∈ pinned, σ v = τ v ∧ ∃ form ∈ forms, v ∈ form.coefficients.map (·.1)) →
      ∀ v ∈ pinRound loops forms pinned,
        σ v = τ v ∧ ∃ form ∈ forms, v ∈ form.coefficients.map (·.1) := by
    intro pinned hpinned
    -- both folds keep the invariant that all variables found so far agree
    refine List.foldlRecOn (motive := fun l : List String => ∀ v ∈ l,
      σ v = τ v ∧ ∃ form ∈ forms, v ∈ form.coefficients.map (·.1)) forms _ hpinned ?_
    intro l hl form hform
    refine List.foldlRecOn (motive := fun l : List String => ∀ v ∈ l,
      σ v = τ v ∧ ∃ form ∈ forms, v ∈ form.coefficients.map (·.1)) form.coefficients _ hl ?_
    rintro l hl ⟨u, d⟩ hu v hv
    dsimp only at hv
    split at hv
    · rename_i hpins
      simp only [Bool.and_eq_true] at hpins
      obtain rfl | hv := List.mem_cons.1 hv
      · exact ⟨(hlevel form hform).eq_of_pins hu (fun w hw => (hl w hw).1) hpins.2, form, hform,
          List.mem_map.2 ⟨_, hu, rfl⟩⟩
      · exact hl v hv
    · exact hl v hv
  induction n with
  | zero => simp [pinRounds]
  | succ n ih => exact hround _ ih

end Access

end LoopNest
