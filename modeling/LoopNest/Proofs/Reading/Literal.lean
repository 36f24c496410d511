import LoopNest.Kernel.Parser
import LoopNest.Proofs.Double
import LoopNest.Proofs.Reading.Basic

/-!
# Literals as text

A finite double is written with a point between digits (`Decimal.literal_layout`): the shortest
decimal of a number that is no integer has digits after the point, since an integer that lies among
the reals that round to such a number would be the number itself.
-/

namespace LoopNest

open Text Text.Parser

variable {c : Char} {k : Nat} {rest : List Char} {tie : Tie}

namespace Decimal

/-! ## Which decimals are integers -/

/-- The decimal is a natural number. -/
def Scaled.IsNat (d : Scaled) (n : Nat) : Prop :=
  d.digits * 10 ^ d.exponent.toNat = n * 10 ^ (-d.exponent).toNat

theorem Scaled.exists_isNat {d : Scaled} (h : 0 ≤ d.exponent) : ∃ n, d.IsNat n := by
  refine ⟨d.digits * 10 ^ d.exponent.toNat, ?_⟩
  have hzero : (-d.exponent).toNat = 0 := by omega
  rw [Scaled.IsNat, hzero, Nat.pow_zero, Nat.mul_one]

theorem Scaled.isNat_of_dropZeros {n : Nat} {d : Scaled} (h : (d.dropZeros k).IsNat n) :
    d.IsNat n := by
  induction k generalizing d with
  | zero => exact h
  | succ k ih =>
    rw [dropZeros] at h
    split at h
    next hdigits =>
      have hten : d.digits = d.digits / 10 * 10 := by
        simp only [Bool.and_eq_true, beq_iff_eq] at hdigits
        omega
      have hshift := ih h
      unfold Scaled.IsNat at hshift ⊢
      simp only at hshift
      rw [hten]
      rcases Int.lt_or_le d.exponent 0 with hexp | hexp
      · have hup : (d.exponent + 1).toNat = d.exponent.toNat := by omega
        have hdown : (-d.exponent).toNat = (-(d.exponent + 1)).toNat + 1 := by omega
        rw [hup] at hshift
        rw [hdown, Nat.pow_succ, ← Nat.mul_assoc, ← hshift]
        ac_rfl
      · have hup : (d.exponent + 1).toNat = d.exponent.toNat + 1 := by omega
        have hdown : (-(d.exponent + 1)).toNat = (-d.exponent).toNat := by omega
        rw [hup, hdown, Nat.pow_succ] at hshift
        rw [← hshift]
        ac_rfl
    next => exact h

variable {x : Magnitude} {d : Scaled} {n : Nat}

theorem le_of_compareScaled {a b : Nat} {i j : Int} (h : compareScaled a i b j ≠ .lt) :
    b * 2 ^ j.toNat * 10 ^ (-i).toNat ≤ a * 10 ^ i.toNat * 2 ^ (-j).toNat := by
  rw [compareScaled, Ne, Nat.compare_eq_lt] at h
  omega

theorem ge_of_compareScaled {a b : Nat} {i j : Int} (h : compareScaled a i b j ≠ .gt) :
    a * 10 ^ i.toNat * 2 ^ (-j).toNat ≤ b * 2 ^ j.toNat * 10 ^ (-i).toNat := by
  rw [compareScaled, Ne, Nat.compare_eq_gt] at h
  omega

/-- An integer among the reals that round to `x` is `x`, if `x` has bits after the point. -/
theorem Magnitude.eq_of_readsBack (hexp : x.exponent < 0) (h : x.readsBack d = true)
    (hd : d.IsNat n) : n * 2 ^ (-x.exponent).toNat = x.mantissa := by
  have hpow : 0 < 10 ^ (-d.exponent).toNat := Nat.pow_pos (by decide)
  have hnone : (x.exponent - 2).toNat = 0 := by omega
  have hplaces : (-(x.exponent - 2)).toNat = (-x.exponent).toNat + 2 := by omega
  have hscale : d.digits * 10 ^ d.exponent.toNat * 2 ^ (-(x.exponent - 2)).toNat =
      4 * (n * 2 ^ (-x.exponent).toNat) * 10 ^ (-d.exponent).toNat := by
    rw [hd, hplaces, Nat.pow_add, show 2 ^ 2 = 4 from rfl]
    generalize 10 ^ (-d.exponent).toNat = ten
    generalize 2 ^ (-x.exponent).toNat = two
    ac_rfl
  simp only [readsBack, Bool.and_eq_true, Bool.or_eq_true, beq_iff_eq] at h
  have hlow : (if x.narrowBelow then 4 * x.mantissa - 1 else 4 * x.mantissa - 2) ≤
      4 * (n * 2 ^ (-x.exponent).toNat) := by
    have hle := le_of_compareScaled (a := d.digits) (i := d.exponent) (j := x.exponent - 2)
      (b := if x.narrowBelow then 4 * x.mantissa - 1 else 4 * x.mantissa - 2) (by
        rcases h.1 with h | h <;> simp [h])
    rw [hscale, hnone, Nat.pow_zero, Nat.mul_one] at hle
    exact Nat.le_of_mul_le_mul_right hle hpow
  have hhigh : 4 * (n * 2 ^ (-x.exponent).toNat) ≤ 4 * x.mantissa + 2 := by
    have hle := ge_of_compareScaled (a := d.digits) (i := d.exponent) (j := x.exponent - 2)
      (b := 4 * x.mantissa + 2) (by rcases h.2 with h | h <;> simp [h])
    rw [hscale, hnone, Nat.pow_zero, Nat.mul_one] at hle
    exact Nat.le_of_mul_le_mul_right hle hpow
  split at hlow <;> omega

theorem Magnitude.eq_of_exact (hexp : x.exponent < 0) (hd : x.exact.IsNat n) :
    n * 2 ^ (-x.exponent).toNat = x.mantissa := by
  have hmin : min x.exponent 0 = x.exponent := by omega
  have hnone : x.exponent.toNat = 0 := by omega
  have hpow : 0 < 5 ^ (-x.exponent).toNat := Nat.pow_pos (by decide)
  have hten : 10 ^ (-x.exponent).toNat = 2 ^ (-x.exponent).toNat * 5 ^ (-x.exponent).toNat := by
    rw [← Nat.mul_pow]
  simp only [Scaled.IsNat, exact, hmin, hnone, hten, Nat.pow_zero, Nat.mul_one,
    ← Nat.mul_assoc] at hd
  exact (Nat.eq_of_mul_eq_mul_right hpow hd).symm

theorem Magnitude.readsBack_of_neighbour {grid : Int} (h : x.neighbour tie grid = some d) :
    x.readsBack d = true := by
  unfold neighbour at h
  simp only at h
  split at h
  next => cases h
  next hdown _ =>
    cases h
    exact hdown
  next hup =>
    cases h
    exact hup
  next hdown hup =>
    have hcases : d = ⟨x.onGrid grid, grid⟩ ∨ d = ⟨x.onGrid grid + 1, grid⟩ := by
      grind
    rcases hcases with rfl | rfl
    · exact hdown
    · exact hup

/-- A number that is no integer is written with digits after the point. -/
theorem Magnitude.exponent_shortest (h : x.toNat? = none) : (x.shortest tie).exponent < 0 := by
  have hfraction : x.mantissa % 2 ^ (-x.exponent).toNat ≠ 0 := by
    intro hzero
    rw [toNat?, if_pos hzero] at h
    cases h
  have hpos : x.mantissa ≠ 0 := fun hzero => hfraction (by rw [hzero, Nat.zero_mod])
  have hexp : x.exponent < 0 := by
    refine Int.lt_of_not_ge fun hexp => hfraction ?_
    rw [show (-x.exponent).toNat = 0 by omega, Nat.pow_zero, Nat.mod_one]
  refine Int.lt_of_not_ge fun hnonneg => ?_
  obtain ⟨n, hn⟩ := Scaled.exists_isNat hnonneg
  rw [shortest, if_neg hpos] at hn
  have hvalue : n * 2 ^ (-x.exponent).toNat = x.mantissa := by
    have hscaled := Scaled.isNat_of_dropZeros hn
    cases hfound : (List.range 17).findSome? fun k => x.neighbour tie (x.scale - (k + 1 : Nat)) with
    | none =>
      rw [hfound, Option.getD_none] at hscaled
      exact eq_of_exact hexp hscaled
    | some d =>
      rw [hfound, Option.getD_some] at hscaled
      obtain ⟨k, -, hk⟩ := List.exists_of_findSome?_eq_some hfound
      exact eq_of_readsBack hexp (readsBack_of_neighbour hk) hscaled
  exact hfraction (by rw [← hvalue, Nat.mul_mod_left])

/-! ## Layout -/

/-- Digits, a point and digits. -/
structure Pointed (s : List Char) (whole places : List Char) : Prop where
  eq : s = whole ++ '.' :: places
  ne_nil : whole ≠ []
  whole : ∀ c ∈ whole, isDigit c = true
  places : ∀ c ∈ places, isDigit c = true

theorem isDigit_of_mem_zeros (h : c ∈ (zeros k).toList) : isDigit c = true := by
  rw [zeros, String.toList_ofList] at h
  rw [List.eq_of_mem_replicate h]
  decide

/-- A point before the last `k` of more than `k` digits. -/
theorem pointed_cut {digits : List Char} (h : ∀ c ∈ digits, isDigit c = true)
    (hk : k < digits.length) :
    Pointed (digits.take (digits.length - k) ++ '.' :: digits.drop (digits.length - k))
      (digits.take (digits.length - k)) (digits.drop (digits.length - k)) where
  eq := rfl
  ne_nil := by
    rw [← List.length_pos_iff, List.length_take]
    omega
  whole c hc := h c (List.mem_of_mem_take hc)
  places c hc := h c (List.mem_of_mem_drop hc)

theorem Scaled.pointed_positional {d : Scaled} (h : d.exponent < 0) (pointZero : Bool) :
    ∃ whole places, Pointed (d.positional pointZero).toList whole places := by
  have hdigits : ∀ k, ∀ c ∈ (zeros k ++ toString d.digits).toList, isDigit c = true := by
    intro k c hc
    rw [String.toList_append, List.mem_append] at hc
    rcases hc with hc | hc
    · exact isDigit_of_mem_zeros hc
    · exact isDigit_of_mem_toDigits (by simpa using hc)
  have hlength : (-d.exponent).toNat <
      (zeros ((-d.exponent).toNat + 1 - (toString d.digits).length) ++
        toString d.digits).toList.length := by
    rw [String.toList_append, List.length_append, zeros, String.toList_ofList,
      List.length_replicate, String.length_toList]
    omega
  rw [positional, if_neg (by omega), String.toList_append, String.toList_append,
    String.toList_ofList, String.toList_ofList, String.toList_ofList, List.append_assoc]
  exact ⟨_, _, pointed_cut (hdigits _) hlength⟩

theorem isNaN_isInf_of_isFinite {x : Float} (h : x.isFinite = true) :
    x.isNaN = false ∧ x.isInf = false := by
  have hparts : (Double.parts x).isFinite = true := h
  show (Double.parts x).isNaN = false ∧ (Double.parts x).isInf = false
  generalize Double.parts x = y at hparts
  cases y with
  | notANumber | infinity s => cases hparts
  | _ => exact ⟨rfl, rfl⟩

theorem isInf_of_not_isFinite {x : Float} (h : x.isFinite = false) (hnan : x.isNaN = false) :
    x.isInf = true := by
  have hparts : (Double.parts x).isFinite = false ∧ (Double.parts x).isNaN = false := ⟨h, hnan⟩
  show (Double.parts x).isInf = true
  generalize Double.parts x = y at hparts
  cases y with
  | infinity s => rfl
  | notANumber => cases hparts.2
  | _ => cases hparts.1

/-- The sign of a double as it is written. -/
def signText (x : Float) : List Char := if isNegative x then ['-'] else []

theorem toList_sign (x : Float) : (if isNegative x then "-" else "").toList = signText x := by
  unfold signText
  split <;> rfl

/-- **A finite double is written with a point**, between digits. -/
theorem literal_layout {x : Float} (h : x.isFinite = true) :
    ∃ s whole places, (literal x).toList = signText x ++ s ∧ Pointed s whole places := by
  unfold literal
  rw [h]
  cases hnat : (Magnitude.ofFloat x).toNat? with
  | some n =>
    refine ⟨Nat.toDigits 10 n ++ ['.', '0'], Nat.toDigits 10 n, ['0'], ?_, rfl, Nat.toDigits_ne_nil,
      fun c => isDigit_of_mem_toDigits, forall_mem_of_all (by decide)⟩
    simp [toList_sign]
  | none =>
    obtain ⟨hnan, hinf⟩ := isNaN_isInf_of_isFinite h
    have hexp : ((Magnitude.ofFloat x).shortest .away).exponent < 0 :=
      Magnitude.exponent_shortest hnat
    obtain ⟨whole, places, hpointed⟩ := Scaled.pointed_positional hexp false
    refine ⟨_, whole, places, ?_, hpointed⟩
    simp only [Layout.render, hnan, hinf, Bool.false_eq_true, if_false, String.toList_append,
      toList_sign]
    rfl

theorem literal_of_not_isFinite {x : Float} (h : x.isFinite = false) :
    (literal x).toList = if x.isNaN then "NaN".toList else signText x ++ "inf".toList := by
  have hplain : literal x = plain.render x := by
    unfold literal
    rw [h]
  rw [hplain, Layout.render]
  split
  next => rfl
  next hnan =>
    have hinf : x.isInf = true := isInf_of_not_isFinite h (by simpa using hnan)
    rw [hinf, if_pos rfl, String.toList_append, toList_sign]

/-! ## Reading -/

theorem range_of_isDigit (h : isDigit c = true) : 48 ≤ c.toNat ∧ c.toNat ≤ 57 := by
  rw [isDigit, Bool.and_eq_true, decide_eq_true_iff, decide_eq_true_iff, Char.le_def, Char.le_def,
    UInt32.le_iff_toNat_le, UInt32.le_iff_toNat_le] at h
  exact h

theorem isDigit_of_not_isIdentRest (h : isIdentRest c = false) : isDigit c = false := by
  cases hdigit : isDigit c with
  | false => rfl
  | true =>
    have hrange := range_of_isDigit hdigit
    have hrest : isIdentRest c = true := by
      have hchar : c.isDigit = true := by
        rw [Char.isDigit, Bool.and_eq_true, decide_eq_true_iff, decide_eq_true_iff, ge_iff_le,
          UInt32.le_iff_toNat_le, UInt32.le_iff_toNat_le]
        exact hrange
      rw [isIdentRest, Char.isAlphanum, hchar, Bool.or_true, Bool.true_or]
    rw [hrest] at h
    cases h

/-- The double that digits around a point stand for. -/
def pointValue (whole places : List Char) : Float :=
  nearest (ofDigits (whole ++ places)) (0 - (places.length : Int))

variable {s whole places : List Char}

theorem Pointed.head (h : Pointed s whole places) : ∃ c cs, s = c :: cs ∧ isDigit c = true := by
  obtain ⟨c, cs, rfl⟩ := List.exists_cons_of_ne_nil h.ne_nil
  exact ⟨c, cs ++ '.' :: places, h.eq, h.whole c (.head _)⟩

/-- No word starts with a digit. -/
theorem toLower_of_isDigit (h : isDigit c = true) : c.toLower = c := by
  have hrange := range_of_isDigit h
  rw [Char.toLower, dif_neg]
  rintro ⟨hupper, -⟩
  have hlarge : 65 ≤ c.toNat := UInt32.le_iff_toNat_le.1 hupper
  omega

theorem Pointed.cut (h : Pointed s whole places) :
    s.takeWhile isDigit = whole ∧ s.dropWhile isDigit = '.' :: places := by
  have hrun : Parser.takeWhile isDigit (whole ++ '.' :: places) = .ok whole ('.' :: places) :=
    takeWhile_append h.whole (forall_head (by decide))
  rw [← h.eq, Parser.takeWhile, Parsed.ok.injEq] at hrun
  exact hrun

theorem Pointed.takeWhile_places (h : Pointed s whole places) :
    places.takeWhile isDigit = places ∧ places.dropWhile isDigit = [] := by
  have hrun : Parser.takeWhile isDigit (places ++ []) = .ok places [] :=
    takeWhile_append h.places (by simp)
  rw [List.append_nil, Parser.takeWhile, Parsed.ok.injEq] at hrun
  exact hrun

theorem Pointed.magnitude? (h : Pointed s whole places) :
    magnitude? s = some (pointValue whole places) := by
  obtain ⟨c, cs, hs, hc⟩ := h.head
  have hword : ∀ w d ds, w.toList = d :: ds → isDigit d = false →
      String.ofList (s.map Char.toLower) ≠ w := by
    rintro w d ds hw hd rfl
    rw [String.toList_ofList, hs, List.map_cons, toLower_of_isDigit hc] at hw
    rw [← (List.cons.inj hw).1, hc] at hd
    cases hd
  unfold Decimal.magnitude?
  split
  next heq => exact absurd heq (hword _ _ _ rfl (by decide))
  next heq => exact absurd heq (hword _ _ _ rfl (by decide))
  next heq => exact absurd heq (hword _ _ _ rfl (by decide))
  next =>
    have hsome : ¬ (whole.isEmpty && places.isEmpty) = true := by simp [h.ne_nil]
    rw [h.cut.1, h.cut.2]
    simp only [h.takeWhile_places, if_neg hsome]
    rfl

theorem exponent_fails (h : Ends rest) : Fails (satisfy fun c => c == 'e' || c == 'E') rest := by
  refine satisfy_fails fun c hc => ?_
  have hnot := h c hc
  rw [Bool.or_eq_false_iff, beq_eq_false_iff_ne, beq_eq_false_iff_ne]
  constructor
  · rintro rfl
    exact absurd hnot (by decide)
  · rintro rfl
    exact absurd hnot (by decide)

theorem Pointed.number (h : Pointed s whole places) (hrest : Ends rest) :
    number (s ++ rest) = .ok (.float (pointValue whole places)) rest := by
  have hwhole : takeWhile1 isDigit (whole ++ '.' :: (places ++ rest)) =
      .ok whole ('.' :: (places ++ rest)) :=
    takeWhile1_append h.ne_nil h.whole (forall_head (by decide))
  have hplaces : optional (do text "."; takeWhile isDigit) ('.' :: (places ++ rest)) =
      .ok (some places) rest := by
    apply optional_ok
    refine (bind_ok (text_append "." (places ++ rest))).trans ?_
    exact takeWhile_append h.places fun c hc => isDigit_of_not_isIdentRest (hrest c hc)
  rw [h.eq, List.append_assoc, List.cons_append, LoopNest.number, bind_ok hwhole, bind_ok hplaces,
    bind_ok (optional_of_fails (exponent_fails hrest).bind)]
  rfl

/-- What the text of a double is read as. -/
def reread (x : Float) : Float := (double? (literal x).toList).getD x

/-- **A finite double is read from its text**, the sign apart. -/
theorem number_literal {x : Float} (h : x.isFinite = true) :
    ∃ s v, (literal x).toList = signText x ++ s ∧ (∃ c cs, s = c :: cs ∧ isDigit c = true) ∧
      (∀ rest, Ends rest → number (s ++ rest) = .ok (.float v) rest) ∧
      reread x = if isNegative x then -v else v := by
  obtain ⟨s, whole, places, hlayout, hs⟩ := literal_layout h
  obtain ⟨c, cs, hhead, hc⟩ := hs.head
  refine ⟨s, pointValue whole places, hlayout, ⟨c, cs, hhead, hc⟩, fun rest => hs.number, ?_⟩
  rw [reread, hlayout, signText]
  split
  next =>
    show ((magnitude? s).map fun x => -x).getD x = _
    rw [hs.magnitude?]
    rfl
  next =>
    have hplain : double? s = magnitude? s := by
      unfold double?
      split
      next =>
        cases hhead
        exact absurd hc (by decide)
      next =>
        cases hhead
        exact absurd hc (by decide)
      next => rfl
    rw [List.nil_append, hplain, hs.magnitude?]
    rfl

end Decimal

/-- An integer is read from its digits where no digit and no point follow. -/
theorem number_toDigits {n : Nat} {w : Word} (h : w.toInt = n) (hrest : Ends rest)
    (hpoint : rest.head? ≠ some '.') : number (Nat.toDigits 10 n ++ rest) = .ok (.int w) rest := by
  have hdigits : takeWhile1 Decimal.isDigit (Nat.toDigits 10 n ++ rest) =
      .ok (Nat.toDigits 10 n) rest :=
    takeWhile1_append Nat.toDigits_ne_nil (fun _ => Decimal.isDigit_of_mem_toDigits)
      fun c hc => Decimal.isDigit_of_not_isIdentRest (hrest c hc)
  have hnone : Fails (text ".") rest :=
    text_fails (c := '.') rfl fun d hd heq => hpoint (heq ▸ hd)
  rw [number, bind_ok hdigits, bind_ok (optional_of_fails hnone.bind),
    bind_ok (optional_of_fails (Decimal.exponent_fails hrest).bind)]
  simp only [Decimal.ofDigits_toDigits, Word.ofInt?_eq_some.2 h]
  rfl

end LoopNest
