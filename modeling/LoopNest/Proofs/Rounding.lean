import LoopNest.Element
import Mathlib

/-!
# Rounding a second time

What a buffer holds has been rounded to its type, and rounding it again does not change it
(`Rounding`). Doubles are rounded this way (`Double.rounding`). Their signs and magnitudes are read
off their bits, and a magnitude is rounded to the bits of a single (`singleBits_singleBits`) or to
those of an integer (`integerBits_integerBits`).
-/

namespace LoopNest

/-- What is asked of rounding: it changes nothing that it has rounded, doubles are not rounded at
all, and the type `f32` holds the negation of what it holds. -/
structure Rounding (α : Type) [Element α] : Prop where
  again : ∀ ty (x : α), Element.round ty (Element.round ty x) = Element.round ty x
  double : ∀ x : α, Element.round .f64 x = x
  single : ∀ x : α, Element.round .f32 x = x → Element.round .f32 (Element.neg x) = Element.neg x

namespace Double

open Decimal Float.Model Float.Model.UnpackedFloat

/-! ## Signs and magnitudes -/

section bits

variable (b : BitVec Format.binary64.numBits)

theorem toNat_fields : b.toNat =
    (unpackSign b).toNat * 2 ^ 63 + (unpackExponent b).toNat * 2 ^ 52 +
      (unpackMantissa b).toNat := by
  conv_lhs => rw [← packComponents_unpackSign_unpackExponent_unpackMantissa b]
  rw [packComponents, Sign.toBitVec_ofBitVec, BitVec.toNat_append, BitVec.toNat_append,
    ← Nat.shiftLeft_add_eq_or_of_lt (BitVec.isLt _),
    ← Nat.shiftLeft_add_eq_or_of_lt (BitVec.isLt _), Nat.shiftLeft_eq, Nat.shiftLeft_eq]
  show (_ * 2 ^ 11 + _) * 2 ^ 52 + _ = _
  omega

theorem isNaNBits_iff : isNaNBits b = true ↔ infinityBits < b.toNat % 2 ^ 63 := by
  have hfields := toNat_fields b
  have hexp : (unpackExponent b).toNat < 2 ^ 11 := (unpackExponent b).isLt
  have hmant : (unpackMantissa b).toNat < 2 ^ 52 := (unpackMantissa b).isLt
  have hones : (-BitVec.ofNat Format.binary64.exponentBits 1).toNat = 2047 := rfl
  rw [isNaNBits, decide_eq_true_iff, ne_eq, ← BitVec.toNat_inj, ← BitVec.toNat_inj, hones,
    BitVec.toNat_zero, infinityBits]
  omega

/-- The bits with the other sign. -/
def opposite : BitVec Format.binary64.numBits :=
  packComponents .binary64 (-Sign.ofBitVec (unpackSign b)) (unpackExponent b) (unpackMantissa b)

theorem unpack_opposite :
    UnpackedFloat.unpack .binary64 (opposite b) = (UnpackedFloat.unpack .binary64 b).neg := by
  unfold opposite UnpackedFloat.unpack
  simp only [unpackMantissa_packComponents, unpackExponent_packComponents,
    UnpackedFloat.unpackSign_packComponents, Sign.ofBitVec_toBitVec]
  split
  · split <;> rfl
  · split
    · split <;> rfl
    · rfl

theorem toNat_opposite : (opposite b).toNat % 2 ^ 63 = b.toNat % 2 ^ 63 ∧
    (2 ^ 63 ≤ (opposite b).toNat ↔ b.toNat < 2 ^ 63) := by
  have hfields := toNat_fields b
  have hexp : (unpackExponent b).toNat < 2 ^ 11 := (unpackExponent b).isLt
  have hmant : (unpackMantissa b).toNat < 2 ^ 52 := (unpackMantissa b).isLt
  have hsign : (-Sign.ofBitVec (unpackSign b)).toBitVec.toNat + (unpackSign b).toNat = 1 := by
    generalize unpackSign b = s
    revert s
    decide
  rw [toNat_fields (opposite b), opposite, unpackMantissa_packComponents,
    unpackExponent_packComponents, UnpackedFloat.unpackSign_packComponents]
  omega

end bits

section signs

variable {x y : Float}

theorem isNegative_iff : isNegative x = true ↔ 2 ^ 63 ≤ x.toBits.toNat := by
  have hlt := x.toBits.toNat_lt
  rw [isNegative, beq_iff_eq, ← UInt64.toNat_inj, UInt64.toNat_shiftRight,
    Nat.shiftRight_eq_div_pow]
  show x.toBits.toNat / 2 ^ 63 = 1 ↔ _
  omega

/-- A double is its sign and its magnitude. -/
theorem eq_of_magnitudeBits (hsign : isNegative x = isNegative y)
    (hbits : magnitudeBits x = magnitudeBits y) : x = y := by
  refine Float.toBits_inj.1 (UInt64.toNat_inj.1 ?_)
  have hx := x.toBits.toNat_lt
  have hy := y.toBits.toNat_lt
  have hsigns : 2 ^ 63 ≤ x.toBits.toNat ↔ 2 ^ 63 ≤ y.toBits.toNat := by
    rw [← isNegative_iff, ← isNegative_iff, hsign]
  unfold magnitudeBits at hbits
  omega

theorem isNaN_iff_lt : x.isNaN = true ↔ infinityBits < magnitudeBits x := by
  show (UnpackedFloat.unpack .binary64 x.toModel.toBits.toBitVec).isNaN = true ↔
    infinityBits < x.toModel.toBits.toBitVec.toNat % 2 ^ 63
  rw [isNaN_unpack_iff_of_valid x.toModel.valid, ← isNaNBits_iff]
  refine ⟨fun h => h ▸ isNaNBits_packedNaN, fun h => ?_⟩
  obtain ⟨hexp, hmant⟩ := of_decide_eq_true h
  exact x.toModel.valid.eq_packedNaN hexp hmant

/-- There is one double that is no number, and it is its own negation. -/
theorem neg_of_isNaN (h : x.isNaN = true) : -x = x := by
  rw [Float.isNaN_eq_decide_eq_nan, decide_eq_true_iff] at h
  rw [h]
  decide

theorem toBits_neg (h : ¬ x.isNaN = true) : (-x).toBits.toBitVec = opposite x.toBits.toBitVec := by
  have hnum : ¬ isNaNBits (opposite x.toBits.toBitVec) = true := by
    rw [isNaNBits_iff, (toNat_opposite _).1]
    rwa [isNaN_iff_lt] at h
  show UnpackedFloat.pack .binary64 (UnpackedFloat.unpack .binary64 x.toBits.toBitVec).neg = _
  rw [← unpack_opposite, pack_unpack, if_neg hnum]

theorem magnitudeBits_neg (h : ¬ x.isNaN = true) : magnitudeBits (-x) = magnitudeBits x := by
  show (-x).toBits.toBitVec.toNat % 2 ^ 63 = _
  rw [toBits_neg h, (toNat_opposite _).1]
  rfl

theorem isNegative_neg (h : ¬ x.isNaN = true) : isNegative (-x) = !isNegative x := by
  rw [Bool.eq_iff_iff, isNegative_iff, Bool.not_eq_true', ← Bool.not_eq_true, isNegative_iff,
    Nat.not_le]
  show 2 ^ 63 ≤ (-x).toBits.toBitVec.toNat ↔ _
  rw [toBits_neg h]
  exact (toNat_opposite _).2

end signs

section made

variable {n : Nat} (negative : Bool) (hn : n ≤ infinityBits)

include hn

theorem toNat_toBits_ofBits : (Float.ofBits n.toUInt64).toBits.toNat = n := by
  have hlt : n < 2 ^ 63 := Nat.lt_of_le_of_lt hn (by decide)
  have hword : n.toUInt64.toNat = n := Nat.mod_eq_of_lt (by omega)
  have hnum : ¬ @isNaNBits .binary64 n.toUInt64.toBitVec = true := by
    rw [isNaNBits_iff]
    show ¬ infinityBits < n.toUInt64.toNat % 2 ^ 63
    rw [hword, Nat.mod_eq_of_lt hlt]
    exact Nat.not_lt.2 hn
  show (UnpackedFloat.pack .binary64 (UnpackedFloat.unpack .binary64 n.toUInt64.toBitVec)).toNat = n
  rw [pack_unpack, if_neg hnum]
  exact hword

theorem magnitudeBits_ofBits : magnitudeBits (Float.ofBits n.toUInt64) = n := by
  rw [magnitudeBits, toNat_toBits_ofBits hn]
  exact Nat.mod_eq_of_lt (Nat.lt_of_le_of_lt hn (by decide))

theorem not_isNaN_ofBits : ¬ (Float.ofBits n.toUInt64).isNaN = true := by
  rw [isNaN_iff_lt, magnitudeBits_ofBits hn]
  exact Nat.not_lt.2 hn

theorem magnitudeBits_ofMagnitudeBits : magnitudeBits (ofMagnitudeBits negative n) = n := by
  cases negative with
  | false => exact magnitudeBits_ofBits hn
  | true => exact (magnitudeBits_neg (not_isNaN_ofBits hn)).trans (magnitudeBits_ofBits hn)

theorem isNegative_ofMagnitudeBits : isNegative (ofMagnitudeBits negative n) = negative := by
  have hpos : isNegative (Float.ofBits n.toUInt64) = false := by
    rw [← Bool.not_eq_true, isNegative_iff, toNat_toBits_ofBits hn]
    exact Nat.not_le.2 (Nat.lt_of_le_of_lt hn (by decide))
  cases negative with
  | false => exact hpos
  | true => exact (isNegative_neg (not_isNaN_ofBits hn)).trans (by rw [hpos]; rfl)

theorem not_isNaN_ofMagnitudeBits : ¬ (ofMagnitudeBits negative n).isNaN = true := by
  rw [isNaN_iff_lt, magnitudeBits_ofMagnitudeBits negative hn]
  exact Nat.not_lt.2 hn

end made

/-! ## Singles -/

variable {m k n : Nat} {x : Float}

theorem nearest_mul_of_dvd (h : 2 ^ k ∣ m) : nearest m k * 2 ^ k = m := by
  have hdown : nearest m k = m / 2 ^ k := by
    rw [nearest, Nat.mod_eq_zero_of_dvd h]
    exact if_pos (.inl (Nat.two_pow_pos k))
  rw [hdown, Nat.div_mul_cancel h]

theorem nearest_of_lt (h : 2 * m < 2 ^ k) : nearest m k = 0 := by
  rw [nearest, Nat.div_eq_of_lt (by omega), Nat.mod_eq_of_lt (by omega)]
  exact if_pos (.inl h)

theorem le_nearest {c : Nat} (h : c * 2 ^ k ≤ m) : c ≤ nearest m k := by
  have hdiv : c ≤ m / 2 ^ k := (Nat.le_div_iff_mul_le (Nat.two_pow_pos k)).2 h
  simp only [nearest]
  split <;> omega

theorem nearest_le {c : Nat} (h : m ≤ c * 2 ^ k) : nearest m k ≤ c := by
  have hdiv : m / 2 ^ k ≤ c := Nat.div_le_of_le_mul (by rwa [Nat.mul_comm])
  simp only [nearest]
  split
  · exact hdiv
  next hup =>
    -- a remainder is left, so the quotient is below the bound
    refine Nat.lt_of_le_of_ne hdiv fun heq => ?_
    have hsplit := Nat.div_add_mod m (2 ^ k)
    have hpos := Nat.two_pow_pos k
    rw [heq, Nat.mul_comm] at hsplit
    omega

theorem shortenedBits_of_lt (h : 53 < k) : shortenedBits n k = 0 := by
  have hpow : 2 ^ 54 ≤ 2 ^ k := Nat.pow_le_pow_right (by decide) h
  rw [shortenedBits, nearest_of_lt (by omega), Nat.zero_mul]
  exact if_pos rfl

theorem shortenedBits_of_dvd (h : 2 ^ k ∣ n % 2 ^ 52 + 2 ^ 52) : shortenedBits n k = n := by
  rw [shortenedBits, nearest_mul_of_dvd h, if_neg (by omega), Nat.add_sub_cancel]

/-- The nearest mantissa is none, it is carried to the next exponent, or it keeps its exponent. -/
theorem shortenedBits_cases (k : Nat) (hn : 2 ^ 52 ≤ n) :
    shortenedBits n k = 0 ∨ k ≤ 53 ∧ shortenedBits n k = (n / 2 ^ 52 + 1) * 2 ^ 52 ∨
      shortenedBits n k / 2 ^ 52 = n / 2 ^ 52 ∧ 2 ^ k ∣ shortenedBits n k % 2 ^ 52 + 2 ^ 52 := by
  by_cases hk : 53 < k
  · exact .inl (shortenedBits_of_lt hk)
  have hk : k ≤ 53 := Nat.not_lt.1 hk
  simp only [shortenedBits]
  generalize hm : n % 2 ^ 52 + 2 ^ 52 = m
  generalize hm' : nearest m k * 2 ^ k = m'
  split
  · exact .inl rfl
  next hzero =>
    have hle : m' ≤ 2 ^ 53 := by
      have hpow : 2 ^ (53 - k) * 2 ^ k = 2 ^ 53 := by rw [← Nat.pow_add, Nat.sub_add_cancel hk]
      have hnear : nearest m k ≤ 2 ^ (53 - k) := nearest_le (by omega)
      rw [← hm', ← hpow]
      exact Nat.mul_le_mul_right _ hnear
    obtain hlt | heq := Nat.lt_or_eq_of_le hle
    · -- the mantissa is less than `2 ^ 53`, so a multiple of `2 ^ k` lies below it
      have hk : k ≤ 52 := by
        by_contra hgt
        obtain rfl : k = 53 := by omega
        omega
      have hpow : 2 ^ (52 - k) * 2 ^ k = 2 ^ 52 := by rw [← Nat.pow_add, Nat.sub_add_cancel hk]
      have hnear : 2 ^ (52 - k) ≤ nearest m k := le_nearest (by omega)
      have hge : 2 ^ 52 ≤ m' := by
        rw [← hm', ← hpow]
        exact Nat.mul_le_mul_right _ hnear
      refine .inr (.inr ⟨by omega, ?_⟩)
      have hself : (n + m' - m) % 2 ^ 52 + 2 ^ 52 = m' := by omega
      rw [hself, ← hm']
      exact Nat.dvd_mul_left _ _
    · exact .inr (.inl ⟨hk, by omega⟩)

/-- Bits of singles: those of zero, of infinity, and those with no more bits in the mantissa than a
single has. -/
def IsSingle (n : Nat) : Prop :=
  n = 0 ∨ n = infinityBits ∨
    n < 1151 * 2 ^ 52 ∧ 2 ^ max 29 (926 - n / 2 ^ 52) ∣ n % 2 ^ 52 + 2 ^ 52

theorem singleBits_of_isSingle (h : IsSingle n) : singleBits n = n := by
  obtain rfl | rfl | ⟨hlt, hdvd⟩ := h
  · decide +kernel
  · decide +kernel
  · rw [singleBits, shortenedBits_of_dvd hdvd, if_pos hlt]

theorem isSingle_singleBits (n : Nat) : IsSingle (singleBits n) := by
  simp only [singleBits]
  generalize hk : max 29 (926 - n / 2 ^ 52) = k
  split
  next hlt =>
    by_cases hn : n < 2 ^ 52
    · exact .inl (shortenedBits_of_lt (by omega))
    obtain hzero | ⟨hle, hcarry⟩ | ⟨hexp, hdvd⟩ := shortenedBits_cases k (Nat.not_lt.1 hn)
    · exact .inl hzero
    · refine .inr (.inr ⟨hlt, ?_⟩)
      rw [hcarry, Nat.mul_div_cancel _ (by decide), Nat.mul_mod_left, Nat.zero_add]
      exact Nat.pow_dvd_pow 2 (by omega)
    · exact .inr (.inr ⟨hlt, by rwa [hexp, hk]⟩)
  next => exact .inr (.inl rfl)

theorem singleBits_singleBits (n : Nat) : singleBits (singleBits n) = singleBits n :=
  singleBits_of_isSingle (isSingle_singleBits n)

theorem singleBits_le (n : Nat) : singleBits n ≤ infinityBits := by
  rw [singleBits]
  split
  next hlt => exact Nat.le_trans (Nat.le_of_lt hlt) (by decide)
  next => exact Nat.le_refl _

/-! ## Integers -/

theorem integerBits_integerBits (n : Nat) : integerBits (integerBits n) = integerBits n := by
  by_cases hsmall : n < 1023 * 2 ^ 52
  · rw [show integerBits n = 0 from if_pos hsmall]
    rfl
  · rw [show integerBits n = _ from if_neg hsmall]
    generalize he : n / 2 ^ 52 = e
    generalize hk : 1075 - e = k
    -- the exponent stands for a multiple of `2 ^ k`, so the cut leaves it
    obtain ⟨c, hc⟩ : 2 ^ k ∣ e * 2 ^ 52 := Dvd.dvd.mul_left (Nat.pow_dvd_pow 2 (by omega)) e
    have hkept : e * 2 ^ 52 ≤ n - n % 2 ^ k := by
      have hdiv : c ≤ n / 2 ^ k := by
        rw [Nat.le_div_iff_mul_le (Nat.two_pow_pos k), Nat.mul_comm]
        omega
      have hmul := Nat.mul_le_mul_left (2 ^ k) hdiv
      have hsplit := Nat.div_add_mod n (2 ^ k)
      omega
    have hexp : (n - n % 2 ^ k) / 2 ^ 52 = e := by omega
    rw [integerBits, if_neg (by omega), hexp, hk,
      Nat.sub_mod_eq_zero_of_mod_eq (Nat.mod_mod _ _).symm, Nat.sub_zero]

/-- What is asked of the bounds of an integer type: they are integers. -/
def IsInteger (x : Float) : Prop :=
  integerBits (magnitudeBits x) = magnitudeBits x ∧ magnitudeBits x ≤ infinityBits

instance (x : Float) : Decidable (IsInteger x) := inferInstanceAs (Decidable (_ ∧ _))

section integers

variable {least greatest : Float}

theorem toInteger_zero : toInteger least greatest 0 = 0 := by
  have hzero : magnitudeBits 0 = 0 := by decide +kernel
  rw [toInteger, hzero]
  exact if_pos (Or.inr (Nat.zero_min _))

/-- An integer within the bounds stays what it is. -/
theorem toInteger_eq_self {x : Float} (hint : IsInteger x) (hzero : magnitudeBits x ≠ 0)
    (hle : magnitudeBits x ≤ magnitudeBits (if isNegative x then least else greatest)) :
    toInteger least greatest x = x := by
  have hnan : ¬ (x.isNaN = true ∨ magnitudeBits x = 0) := by
    rw [isNaN_iff_lt]
    exact not_or.2 ⟨Nat.not_lt.2 hint.2, hzero⟩
  rw [toInteger, hint.1, Nat.min_eq_left hle]
  refine (if_neg hnan).trans (eq_of_magnitudeBits ?_ ?_)
  · exact isNegative_ofMagnitudeBits _ hint.2
  · exact magnitudeBits_ofMagnitudeBits _ hint.2

theorem toInteger_toInteger (hleast : IsInteger least) (hgreatest : IsInteger greatest)
    (x : Float) :
    toInteger least greatest (toInteger least greatest x) = toInteger least greatest x := by
  generalize hbound : (if isNegative x then least else greatest) = bound
  have hint : IsInteger bound := by
    rw [← hbound]
    split
    · exact hleast
    · exact hgreatest
  generalize hy : toInteger least greatest x = y
  rw [toInteger, hbound] at hy
  generalize hn : min (integerBits (magnitudeBits x)) (magnitudeBits bound) = n at hy
  split at hy
  · rw [← hy]
    exact toInteger_zero
  next hnum =>
    have hle : n ≤ infinityBits := hn ▸ Nat.le_trans (Nat.min_le_right _ _) hint.2
    have hsign : isNegative y = isNegative x := hy ▸ isNegative_ofMagnitudeBits _ hle
    have hbits : magnitudeBits y = n := hy ▸ magnitudeBits_ofMagnitudeBits _ hle
    -- both the integral part and the bound are integers
    have hfix : integerBits n = n := by
      rw [← hn]
      obtain h | h := Nat.le_total (integerBits (magnitudeBits x)) (magnitudeBits bound)
      · rw [Nat.min_eq_left h, integerBits_integerBits]
      · rw [Nat.min_eq_right h, hint.1]
    refine toInteger_eq_self ?_ ?_ ?_
    · rw [IsInteger, hbits]
      exact ⟨hfix, hle⟩
    · rw [hbits]
      exact (not_or.1 hnum).2
    · rw [hbits, hsign, hbound, ← hn]
      exact Nat.min_le_right _ _

end integers

/-! ## Doubles -/

theorem round_single_of_isNaN (h : x.isNaN = true) : round .f32 x = x := if_pos h

theorem round_single (h : ¬ x.isNaN = true) :
    round .f32 x = ofMagnitudeBits (isNegative x) (singleBits (magnitudeBits x)) :=
  if_neg h

theorem round_single_eq_self (h : ¬ x.isNaN = true) :
    round .f32 x = x ↔ singleBits (magnitudeBits x) = magnitudeBits x := by
  have hle := singleBits_le (magnitudeBits x)
  rw [round_single h]
  constructor
  · intro heq
    rw [← magnitudeBits_ofMagnitudeBits (isNegative x) hle, heq]
  · intro heq
    refine eq_of_magnitudeBits (isNegative_ofMagnitudeBits _ hle) ?_
    rw [magnitudeBits_ofMagnitudeBits _ hle, heq]

/-- **Doubles are rounded once.** -/
theorem rounding : Rounding Float where
  again ty x := by
    show round ty (round ty x) = round ty x
    cases ty with
    | f64 => rfl
    | i8 | i32 => exact toInteger_toInteger (by decide +kernel) (by decide +kernel) x
    | f32 =>
      by_cases hnan : x.isNaN = true
      · rw [round_single_of_isNaN hnan, round_single_of_isNaN hnan]
      · have hle := singleBits_le (magnitudeBits x)
        rw [round_single hnan, round_single_eq_self (not_isNaN_ofMagnitudeBits _ hle),
          magnitudeBits_ofMagnitudeBits _ hle, singleBits_singleBits]
  double _ := rfl
  single x := by
    show round .f32 x = x → round .f32 (-x) = -x
    by_cases hnan : x.isNaN = true
    · rw [neg_of_isNaN hnan]
      exact id
    · have hneg : ¬ (-x).isNaN = true := by
        rwa [isNaN_iff_lt, magnitudeBits_neg hnan, ← isNaN_iff_lt]
      rw [round_single_eq_self hnan, round_single_eq_self hneg, magnitudeBits_neg hnan]
      exact id

end Double

end LoopNest
