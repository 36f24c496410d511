import LoopNest.Tensor
import Mathlib

/-!
# Doubles as signs, mantissas and exponents

A finite double has one reduced form, so a difference is rounded to zero only where the two numbers
are equal (`vanishes_sub_iff`): rounding never takes a number that is not zero to zero. What follows
for the largest of distances, in which what is no number does not count, is `larger_of_vanishes` and
`positive_larger`.
-/

namespace LoopNest.Double

open Float.Model Float.Model.UnpackedFloat

/-- A mantissa and an exponent as the bits of a double hold them: no number has two of them. -/
structure Reduced (m : Nat) (e : Int) : Prop where
  lt : m < 2 ^ 53
  least : -1074 ≤ e
  full : 2 ^ 52 ≤ m ∨ e = -1074

theorem toNat_implicit {w : Nat} (v : BitVec w) : (1#1 ++ v).toNat = 2 ^ w + v.toNat := by
  rw [BitVec.toNat_append, ← Nat.shiftLeft_add_eq_or_of_lt v.isLt]
  simp [Nat.shiftLeft_eq]

variable {m m₁ m₂ : Nat} {e e₁ e₂ : Int} {x y : Float} {s₁ s₂ : Sign}

theorem reduced_of_unpack {b : BitVec Format.binary64.numBits} {s : Sign} {hm : 0 < m}
    (h : UnpackedFloat.unpack .binary64 b = .finite s m e hm) : Reduced m e := by
  have hmant : (unpackMantissa b).toNat < 2 ^ 52 := (unpackMantissa b).isLt
  have hbias : ((Format.binary64.exponentBias : Nat) : Int) = 1023 := rfl
  have hbits : ((Format.binary64.mantissaBitsWithoutImplicit : Nat) : Int) = 52 := rfl
  rw [UnpackedFloat.unpack] at h
  split at h
  · split at h <;> cases h
  · split at h
    · next hexp =>
      split at h
      · cases h
      · -- no implicit bit: the exponent is the least one
        have hzero : (unpackExponent b).toNat = 0 := by rw [hexp]; rfl
        injection h with _ h₂ h₃
        refine ⟨by omega, by omega, .inr (by omega)⟩
    · next hexp =>
      have hpos : (unpackExponent b).toNat ≠ 0 := by
        intro hzero
        exact hexp (BitVec.eq_of_toNat_eq hzero)
      have himpl : (1#1 ++ unpackMantissa b).toNat = 2 ^ 52 + (unpackMantissa b).toNat :=
        toNat_implicit _
      injection h with _ h₂ h₃
      refine ⟨by omega, by omega, .inl (by omega)⟩

theorem unpackSign_packComponents (s : Sign) (e : BitVec 11) (m : BitVec 52) :
    Sign.ofBitVec (unpackSign (packComponents .binary64 s e m)) = s := by
  simp only [unpackSign, packComponents, BitVec.extractLsb]
  rw [BitVec.extractLsb'_append_eq_of_le (by omega), BitVec.extractLsb'_append_eq_of_le (by omega)]
  cases s <;> rfl

/-- What is left of a value in the bits of a double. -/
abbrev repack (u : UnpackedFloat) : UnpackedFloat :=
  UnpackedFloat.unpack .binary64 (UnpackedFloat.pack .binary64 u)

/-- Packing keeps the sign of a finite number, which stays one or becomes infinite. -/
theorem repack_finite (s : Sign) (hm : 0 < m) (hlt : m < 2 ^ 53) (hle : -1074 ≤ e) :
    repack (.finite s m e hm) = .infinity s ∨
      ∃ m' e' hm', repack (.finite s m e hm) = .finite s m' e' hm' := by
  have hbias : ((Format.binary64.exponentBias : Nat) : Int) = 1023 := rfl
  have hbits : ((Format.binary64.mantissaBitsWithoutImplicit : Nat) : Int) = 52 := rfl
  have hall : Format.binary64.mantissaBits = 53 := rfl
  have hexps : 2 ^ Format.binary64.exponentBits = 2048 := rfl
  rw [repack, UnpackedFloat.pack]
  split
  · left
    cases s <;> rfl
  next hbig =>
    right
    split
    · -- a full mantissa: the exponent bits are neither all zero nor all one
      have hne : ∀ v : BitVec 11, v.toNat = 0 ∨ v.toNat = 2047 →
          BitVec.ofNat 11 (e + Format.binary64.exponentBias +
            Format.binary64.mantissaBitsWithoutImplicit).toNat ≠ v := by
        rintro v hv rfl
        rw [BitVec.toNat_ofNat] at hv
        omega
      rw [UnpackedFloat.unpack]
      simp only [unpackMantissa_packComponents, unpackExponent_packComponents,
        unpackSign_packComponents]
      rw [if_neg (hne _ (.inr rfl)), if_neg (hne _ (.inl rfl))]
      exact ⟨_, _, by rw [toNat_implicit]; omega, rfl⟩
    next hlog =>
      have hsmall : m < 2 ^ 52 := by
        have := (Nat.log2_lt (Nat.ne_of_gt hm)).2 hlt
        exact (Nat.log2_lt (Nat.ne_of_gt hm)).1 (by omega)
      have hne : BitVec.ofNat 52 m ≠ 0#52 := by
        intro h
        have := congrArg BitVec.toNat h
        rw [BitVec.toNat_ofNat, Nat.mod_eq_of_lt hsmall] at this
        exact (Nat.ne_of_gt hm) this
      rw [UnpackedFloat.unpack]
      simp only [unpackMantissa_packComponents, unpackExponent_packComponents,
        unpackSign_packComponents]
      rw [if_neg (by decide), if_pos trivial, dif_neg hne]
      exact ⟨_, _, by rwa [BitVec.toNat_ofNat, Nat.mod_eq_of_lt hsmall], rfl⟩

theorem repack_infinity (s : Sign) : repack (.infinity s) = .infinity s := by
  cases s <;> rfl

theorem repack_zero (s : Sign) : repack (.zero s) = .zero s := by
  cases s <;> rfl

theorem repack_notANumber : repack .notANumber = .notANumber := rfl

/-! ### Rounding keeps a number away from zero -/

theorem shiftRight_mantissa (em : ExtendedMantissa) (n : Nat) :
    (em >>> n).mantissa = em.mantissa / 2 ^ n := by
  induction n with
  | zero => simp [HShiftRight.hShiftRight, Nat.repeat]
  | succ n ih =>
    show (em >>> n).mantissa / 2 = _
    rw [ih, Nat.div_div_eq_div_mul, Nat.pow_succ]

theorem mantissa_ofMantissaAndAccuracy (m : Nat) (a : Accuracy) :
    (ExtendedMantissa.ofMantissaAndAccuracy m a).mantissa = m := by
  cases a with
  | exact => rfl
  | inexact o => cases o <;> rfl

theorem le_roundToNearestEven (m : Nat) (a : Accuracy) : m ≤ a.roundToNearestEven m := by
  cases a with
  | exact => exact Nat.le_refl m
  | inexact o => cases o <;> simp only [Accuracy.roundToNearestEven] <;> omega

/-- What a mantissa is cut down to: at most 53 bits, and not nothing. -/
theorem cut_mantissa (hm : 0 < m) (he : -1074 ≤ e) :
    let n := (Format.binary64.targetExponent (totalExponent m e) - e).toNat
    0 < m / 2 ^ n ∧ m / 2 ^ n < 2 ^ 53 := by
  intro n
  have hn : n = m.log2 - 52 := by
    show (max (((m.log2 : Int) + 1 + e) - (53 : Nat)) (-1074) - e).toNat = _
    omega
  have hlow := Nat.log2_self_le (Nat.ne_of_gt hm)
  have hhigh := @Nat.lt_log2_self m
  rw [hn]
  constructor
  · apply Nat.div_pos _ (Nat.two_pow_pos _)
    exact Nat.le_trans (Nat.pow_le_pow_right (by decide) (Nat.sub_le _ _)) hlow
  · rw [Nat.div_lt_iff_lt_mul (Nat.two_pow_pos _), ← Nat.pow_add]
    exact Nat.lt_of_lt_of_le hhigh (Nat.pow_le_pow_right (by decide) (by omega))

theorem round_finite (s : Sign) (hm : 0 < m) (he : -1074 ≤ e) :
    ∃ m' e' hm', UnpackedFloat.round .binary64 s m e = .finite s m' e' hm' ∧ m' < 2 ^ 53 ∧
      -1074 ≤ e' := by
  -- first the exponent is decreased, which keeps it at least the least one
  have hshift : 0 < m <<< (e - Format.binary64.targetExponent (totalExponent m e)).toNat := by
    rw [Nat.shiftLeft_eq]
    exact Nat.mul_pos hm (Nat.two_pow_pos _)
  have hleast : -1074 ≤ e -
      ((e - Format.binary64.targetExponent (totalExponent m e)).toNat : Int) := by
    have : -1074 ≤ Format.binary64.targetExponent (totalExponent m e) := by
      show -1074 ≤ max _ (-1074)
      omega
    omega
  unfold UnpackedFloat.round decreaseExponent
  simp only
  generalize m <<< _ = m₁ at hshift ⊢
  generalize e - _ = e₁ at hleast ⊢
  have hcut := (cut_mantissa hshift hleast).1
  unfold roundWithAccuracy shiftToTargetExponent shiftToExponent
  simp only [shiftRight_mantissa, mantissa_ofMantissaAndAccuracy]
  generalize hr : ExtendedMantissa.roundedMantissa _ = r
  have hpos : 0 < r := by
    rw [← hr]
    refine Nat.lt_of_lt_of_le ?_ (le_roundToNearestEven _ _)
    rwa [shiftRight_mantissa, mantissa_ofMantissaAndAccuracy]
  generalize hk : (Format.binary64.targetExponent (totalExponent m₁ e₁) - e₁).toNat = k
  obtain ⟨hcut₁, hcut₂⟩ := cut_mantissa (e := e₁ + k) hpos (by omega)
  rw [dif_neg (Nat.ne_of_gt hcut₁)]
  exact ⟨_, _, hcut₁, rfl, hcut₂, by omega⟩

/-! ### Distances -/

/-- The value of a double: its sign, mantissa and exponent, or what it is otherwise. -/
def parts (x : Float) : UnpackedFloat := x.toModel.unpack

theorem parts_sub (x y : Float) :
    parts (x - y) = repack (UnpackedFloat.sub .binary64 (parts x) (parts y)) := rfl

theorem parts_abs (x : Float) : parts x.abs = repack (parts x).abs := rfl

theorem parts_zero : parts 0 = .zero .positive := rfl

theorem isNaN_iff : x.isNaN = true ↔ parts x = .notANumber := by
  show UnpackedFloat.isNaN (parts x) = true ↔ _
  cases parts x <;> simp [UnpackedFloat.isNaN]

theorem le_iff : x ≤ y ↔ (parts x).le (parts y) = true := by
  show decide (x.toModel ≤ y.toModel) = true ↔ _
  rw [decide_eq_true_iff]
  exact Iff.rfl

theorem beq_iff : (x == y) = true ↔ (parts x).beq (parts y) = true := Iff.rfl

/-- Neither infinite nor finite: zero, or no number. -/
def Vanishes (u : UnpackedFloat) : Prop := u = .notANumber ∨ ∃ s, u = .zero s

/-- A number has one reduced form. -/
theorem Reduced.eq_of_shifted (h₁ : Reduced m₁ e₁) (h₂ : Reduced m₂ e₂) (hle : e₁ ≤ e₂)
    (h : m₁ = m₂ * 2 ^ (e₂ - e₁).toNat) : m₁ = m₂ ∧ e₁ = e₂ := by
  obtain hlt | rfl := Int.lt_or_eq_of_le hle
  · -- the larger exponent is not the least, so its mantissa is full and `m₁` would be too large
    have hfull : 2 ^ 52 ≤ m₂ := h₂.full.resolve_right (by have := h₁.least; omega)
    have hpow : 2 ^ 1 ≤ 2 ^ (e₂ - e₁).toNat := Nat.pow_le_pow_right (by decide) (by omega)
    have hmul := Nat.mul_le_mul hfull hpow
    have := h₁.lt
    omega
  · simpa using h

theorem Reduced.shifts_eq_iff (h₁ : Reduced m₁ e₁) (h₂ : Reduced m₂ e₂) :
    m₁ <<< (e₁ - min e₁ e₂).toNat = m₂ <<< (e₂ - min e₁ e₂).toNat ↔ m₁ = m₂ ∧ e₁ = e₂ := by
  constructor
  · intro h
    rw [Nat.shiftLeft_eq, Nat.shiftLeft_eq] at h
    obtain hle | hle := Int.le_total e₁ e₂
    · rw [Int.min_eq_left hle, Int.sub_self] at h
      exact h₁.eq_of_shifted h₂ hle (by simpa using h)
    · rw [Int.min_eq_right hle, Int.sub_self] at h
      obtain ⟨hm, he⟩ := h₂.eq_of_shifted h₁ hle (by simpa using h.symm)
      exact ⟨hm.symm, he.symm⟩
  · rintro ⟨rfl, rfl⟩
    rfl

theorem beq_finite_iff {h₁ : 0 < m₁} {h₂ : 0 < m₂} :
    (UnpackedFloat.finite s₁ m₁ e₁ h₁).beq (.finite s₂ m₂ e₂ h₂) = true ↔
      s₁ = s₂ ∧ m₁ = m₂ ∧ e₁ = e₂ := by
  have hlex : (compare e₁ e₂).then (compare m₁ m₂) = .eq ↔ m₁ = m₂ ∧ e₁ = e₂ := by
    rw [Ordering.then_eq_eq, Int.compare_eq_eq, Nat.compare_eq_eq, and_comm]
  cases s₁ <;> cases s₂ <;>
    simp [UnpackedFloat.beq, UnpackedFloat.compare, hlex]

theorem vanishes_normalize {d : Int} (he : -1074 ≤ e) :
    Vanishes (repack (UnpackedFloat.normalize .binary64 d e .positive)) ↔ d = 0 := by
  have hround : ∀ (s : Sign) (m : Nat), 0 < m →
      ¬ Vanishes (repack (UnpackedFloat.round .binary64 s m e)) := by
    intro s m hm hv
    obtain ⟨m', e', hm', hr, hlt, hle⟩ := round_finite s hm he
    rw [hr] at hv
    rcases repack_finite s hm' hlt hle with hp | ⟨m'', e'', hm'', hp⟩ <;>
      simp [Vanishes, hp] at hv
  rw [UnpackedFloat.normalize]
  split
  · next h =>
    have hd : d < 0 := Int.compare_eq_lt.1 h
    simp only [hround _ _ (show 0 < (-d).toNat by omega), false_iff]
    omega
  · next h =>
    have hd : d = 0 := Int.compare_eq_eq.1 h
    simp only [hd, iff_true]
    exact .inr ⟨.positive, rfl⟩
  · next h =>
    have hd : 0 < d := Int.compare_eq_gt.1 h
    simp only [hround _ _ (show 0 < d.toNat by omega), false_iff]
    omega

theorem not_vanishes_pack {s : Sign} (hm : 0 < m) (h : Reduced m e) :
    ¬ Vanishes (repack (.finite s m e hm)) := by
  intro hv
  rcases repack_finite s hm h.lt h.least with hp | ⟨m', e', hm', hp⟩ <;>
    simp [Vanishes, hp] at hv

theorem apply_sub_apply_eq_zero {n₁ n₂ : Nat} (h₁ : 0 < n₁) :
    s₁.apply n₁ - s₂.apply n₂ = 0 ↔ s₁ = s₂ ∧ n₁ = n₂ := by
  cases s₁ <;> cases s₂ <;> simp [Sign.apply] <;> omega

theorem vanishes_sub_finite {h₁ : 0 < m₁} {h₂ : 0 < m₂} (hred₁ : Reduced m₁ e₁)
    (hred₂ : Reduced m₂ e₂) :
    Vanishes (repack (UnpackedFloat.sub .binary64 (.finite s₁ m₁ e₁ h₁) (.finite s₂ m₂ e₂ h₂))) ↔
      (UnpackedFloat.finite s₁ m₁ e₁ h₁).beq (.finite s₂ m₂ e₂ h₂) = true := by
  have hleast : -1074 ≤ min e₁ e₂ := by
    have := hred₁.least
    have := hred₂.least
    omega
  have hpos : 0 < m₁ <<< (e₁ - min e₁ e₂).toNat := by
    rw [Nat.shiftLeft_eq]
    exact Nat.mul_pos h₁ (Nat.two_pow_pos _)
  rw [beq_finite_iff, ← hred₁.shifts_eq_iff hred₂, ← apply_sub_apply_eq_zero hpos]
  exact vanishes_normalize hleast

theorem vanishes_sub_infinity (s t : Sign) :
    Vanishes (repack (UnpackedFloat.sub .binary64 (.infinity s) (.infinity t))) ↔
      (UnpackedFloat.infinity s).beq (.infinity t) = true := by
  cases s <;> cases t
  case positive.positive | negative.negative => exact iff_of_true (.inl rfl) rfl
  case positive.negative | negative.positive =>
    refine iff_of_false ?_ (by decide)
    rintro (h | ⟨_, h⟩) <;> cases h

theorem vanishes_sub_zero (s t : Sign) :
    Vanishes (repack (UnpackedFloat.sub .binary64 (.zero s) (.zero t))) := by
  cases s <;> cases t <;> exact .inr ⟨_, rfl⟩

/-- **A difference vanishes only between equal numbers.** -/
theorem vanishes_sub_iff :
    Vanishes (parts (x - y)) ↔ x.isNaN = true ∨ y.isNaN = true ∨ (x == y) = true := by
  rw [parts_sub, isNaN_iff, isNaN_iff, beq_iff]
  have hx : ∀ s m e hm, parts x = .finite s m e hm → Reduced m e := fun _ _ _ _ => reduced_of_unpack
  have hy : ∀ s m e hm, parts y = .finite s m e hm → Reduced m e := fun _ _ _ _ => reduced_of_unpack
  generalize parts x = u at hx ⊢
  generalize parts y = v at hy ⊢
  cases u <;> cases v
  case finite.finite =>
    simpa using vanishes_sub_finite (hx _ _ _ _ rfl) (hy _ _ _ _ rfl)
  case finite.zero s m e hm t =>
    have h := not_vanishes_pack (s := s) hm (hx _ _ _ _ rfl)
    cases s <;> simpa [UnpackedFloat.sub, UnpackedFloat.beq, UnpackedFloat.compare] using h
  case zero.finite t s m e hm =>
    have h := not_vanishes_pack (s := -s) hm (hy _ _ _ _ rfl)
    cases s <;> simpa [UnpackedFloat.sub, UnpackedFloat.beq, UnpackedFloat.compare] using h
  case infinity.infinity s t => simpa using vanishes_sub_infinity s t
  case zero.zero s t => exact iff_of_true (vanishes_sub_zero s t) (.inr (.inr rfl))
  case infinity.zero s _ | infinity.finite s _ _ _ _ | zero.infinity _ s |
      finite.infinity _ _ _ _ s =>
    cases s <;> simp [Vanishes, UnpackedFloat.sub, UnpackedFloat.beq, UnpackedFloat.compare,
      repack_infinity]
  all_goals simp [Vanishes, UnpackedFloat.sub, repack_notANumber]

/-! ### The largest of distances -/

/-- A number above zero. -/
def Positive (u : UnpackedFloat) : Prop :=
  u = .infinity .positive ∨ ∃ m e hm, u = .finite .positive m e hm

/-- What a distance can be. -/
def IsDistance (x : Float) : Prop := (∃ s, parts x = .zero s) ∨ Positive (parts x)

theorem abs_cases (x : Float) :
    Vanishes (parts x) ∧ Vanishes (parts x.abs) ∨
      ¬ Vanishes (parts x) ∧ Positive (parts x.abs) := by
  rw [parts_abs]
  have hx : ∀ s m e hm, parts x = .finite s m e hm → Reduced m e := fun _ _ _ _ => reduced_of_unpack
  generalize parts x = u at hx ⊢
  cases u with
  | notANumber => exact .inl ⟨.inl rfl, .inl rfl⟩
  | zero s => exact .inl ⟨.inr ⟨s, rfl⟩, .inr ⟨_, repack_zero _⟩⟩
  | infinity s => exact .inr ⟨by simp [Vanishes], .inl (repack_infinity _)⟩
  | finite s m e hm =>
    have h := hx _ _ _ _ rfl
    exact .inr ⟨by simp [Vanishes], repack_finite .positive hm h.lt h.least⟩

theorem le_zero_iff (h : IsDistance x) : x ≤ 0 ↔ ¬ Positive (parts x) := by
  rw [le_iff, parts_zero]
  obtain ⟨s, hs⟩ | hp := h
  · rw [hs]
    exact iff_of_true rfl (by simp [Positive])
  · refine iff_of_false ?_ (not_not_intro hp)
    rcases hp with hp | ⟨m, e, hm, hp⟩ <;> rw [hp] <;>
      simp [UnpackedFloat.le, UnpackedFloat.compare]

/-- What vanishes is never the larger one. -/
theorem larger_of_vanishes {d : Float} (hd : IsDistance d) (hx : Vanishes (parts x)) :
    Tensor.larger d x = d := by
  refine if_pos ?_
  rw [Bool.or_eq_true, decide_eq_true_iff]
  obtain hnan | ⟨s, hs⟩ := hx
  · exact .inl (isNaN_iff.2 hnan)
  · right
    rw [le_iff, hs]
    rcases hd with ⟨t, ht⟩ | ht | ⟨m, e, hm, ht⟩ <;> rw [ht] <;> rfl

/-- The larger one of two is positive where one of them is. -/
theorem positive_larger {d : Float} (hd : IsDistance d) (hx : Positive (parts x)) :
    Positive (parts (Tensor.larger d x)) := by
  rw [Tensor.larger]
  split
  next h =>
    rw [Bool.or_eq_true, decide_eq_true_iff, isNaN_iff, le_iff] at h
    obtain ⟨s, hs⟩ | hp := hd
    · rcases hx with hx | ⟨m, e, hm, hx⟩ <;> rw [hx, hs] at h <;>
        simp [UnpackedFloat.le, UnpackedFloat.compare] at h
    · exact hp
  next => exact hx

end LoopNest.Double
