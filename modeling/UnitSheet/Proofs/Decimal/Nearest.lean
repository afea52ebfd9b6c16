import Mathlib.Algebra.Order.Ring.Nat

namespace UnitSheet

open Float.Model.UnpackedFloat

/-- The natural number nearest to a quotient, and the even one if there are two. -/
def nearestEven (num den : Nat) : Nat :=
  if 2 * (num % den) < den then num / den
  else if 2 * (num % den) = den then num / den + num / den % 2
  else num / den + 1

variable {num den a : Nat}

theorem two_mul_eq (num den : Nat) : 2 * num = 2 * (num / den) * den + 2 * (num % den) := by
  rw [Nat.mul_assoc, ← Nat.mul_add, Nat.div_add_mod']

theorem nearestEven_le (num den : Nat) : 2 * nearestEven num den * den ≤ 2 * num + den := by
  have h := two_mul_eq num den
  have hmod : num / den % 2 ≤ 1 := by omega
  unfold nearestEven
  split
  · omega
  · split
    · have hle := Nat.mul_le_mul_right den (Nat.mul_le_mul_left 2 hmod)
      rw [Nat.mul_add, Nat.add_mul]
      omega
    · rw [Nat.mul_add, Nat.add_mul]
      omega

theorem le_nearestEven_add (hden : 0 < den) : 2 * num ≤ 2 * nearestEven num den * den + den := by
  have h := two_mul_eq num den
  have hmod := Nat.mod_lt num hden
  unfold nearestEven
  split
  · omega
  · split
    · rw [Nat.mul_add, Nat.add_mul]
      omega
    · rw [Nat.mul_add, Nat.add_mul]
      omega

theorem le_nearestEven (hden : 0 < den) (h : a * den ≤ num) : a ≤ nearestEven num den := by
  have hq : a ≤ num / den := (Nat.le_div_iff_mul_le hden).mpr h
  unfold nearestEven
  split
  · exact hq
  · split <;> omega

theorem nearestEven_lt (h : 2 * num + den < 2 * a * den) : nearestEven num den < a := by
  by_contra hle
  have hmul := Nat.mul_le_mul_right den (Nat.mul_le_mul_left 2 (Nat.not_lt.mp hle))
  exact absurd (nearestEven_le num den) (by omega)

theorem even_le_nearestEven_iff (hden : 0 < den) (ha : a % 2 = 0) :
    a ≤ nearestEven num den ↔ 2 * a * den ≤ 2 * num + den := by
  constructor
  · intro hle
    exact (Nat.mul_le_mul_right den (Nat.mul_le_mul_left 2 hle)).trans (nearestEven_le num den)
  · intro h
    have heq := two_mul_eq num den
    have hmod := Nat.mod_lt num hden
    have hq : a ≤ num / den + 1 := by
      by_contra hlt
      have hmul : 2 * (num / den + 2) * den ≤ 2 * a * den :=
        Nat.mul_le_mul_right den (Nat.mul_le_mul_left 2 (Nat.not_le.mp hlt))
      rw [Nat.mul_add, Nat.add_mul] at hmul
      omega
    rcases Nat.le_succ_iff.mp hq with hle | rfl
    · exact le_nearestEven hden (Nat.le_div_iff_mul_le hden |>.mp hle)
    · have hhalf : den ≤ 2 * (num % den) := by
        rw [Nat.succ_eq_add_one, Nat.mul_add, Nat.add_mul] at h
        omega
      unfold nearestEven
      split
      · omega
      · split <;> omega

theorem nearestEven_mul (a : Nat) (hden : 0 < den) : nearestEven (a * den) den = a := by
  rw [nearestEven, Nat.mul_mod_left, Nat.mul_zero, if_pos hden, Nat.mul_div_left a hden]

theorem nearestEven_mul_mul (num den : Nat) (ha : 0 < a) :
    nearestEven (num * a) (den * a) = nearestEven num den := by
  simp only [nearestEven, Nat.mul_mod_mul_right, Nat.mul_div_mul_right num den ha, ← Nat.mul_assoc,
    Nat.mul_lt_mul_right ha, Nat.mul_left_inj ha.ne']

/-- A quotient as a whole part, a round bit and a sticky bit. -/
def fraction (num den : Nat) : ExtendedMantissa where
  mantissa := num / den
  roundBit := den ≤ 2 * (num % den)
  stickyBit := num % den ≠ 0 ∧ 2 * (num % den) ≠ den

theorem eq_fraction {em : ExtendedMantissa} (hmantissa : em.mantissa = num / den)
    (hround : em.roundBit = true ↔ den ≤ 2 * (num % den))
    (hsticky : em.stickyBit = true ↔ num % den ≠ 0 ∧ 2 * (num % den) ≠ den) :
    em = fraction num den := by
  obtain ⟨m, r, s⟩ := em
  rw [fraction, ExtendedMantissa.mk.injEq]
  exact ⟨hmantissa, Bool.eq_iff_iff.mpr (hround.trans decide_eq_true_iff.symm),
    Bool.eq_iff_iff.mpr (hsticky.trans decide_eq_true_iff.symm)⟩

theorem fraction_one (num : Nat) :
    ExtendedMantissa.ofMantissaAndAccuracy num .exact = fraction num 1 :=
  eq_fraction (Nat.div_one num).symm (by simp [ExtendedMantissa.ofMantissaAndAccuracy, Nat.mod_one])
    (by simp [ExtendedMantissa.ofMantissaAndAccuracy, Nat.mod_one])

theorem ofMantissaAndAccuracy_div (hden : 0 < den) :
    ExtendedMantissa.ofMantissaAndAccuracy (num / den) (accuracyOfFraction (num % den) den) =
      fraction num den := by
  unfold accuracyOfFraction
  split
  · next h =>
    exact eq_fraction rfl (by simp [ExtendedMantissa.ofMantissaAndAccuracy, h, hden.ne'])
      (by simp [ExtendedMantissa.ofMantissaAndAccuracy, h])
  · next h =>
    cases hcompare : compare (2 * (num % den)) den with
    | lt =>
      have hlt := Nat.compare_eq_lt.mp hcompare
      exact eq_fraction rfl (by simp [ExtendedMantissa.ofMantissaAndAccuracy, hlt]) (by
        simp [ExtendedMantissa.ofMantissaAndAccuracy, h, hlt.ne])
    | eq =>
      have heq := Nat.compare_eq_eq.mp hcompare
      exact eq_fraction rfl (by simp [ExtendedMantissa.ofMantissaAndAccuracy, heq]) (by
        simp [ExtendedMantissa.ofMantissaAndAccuracy, heq])
    | gt =>
      have hgt := Nat.compare_eq_gt.mp hcompare
      exact eq_fraction rfl (by simp [ExtendedMantissa.ofMantissaAndAccuracy, hgt.le]) (by
        simp [ExtendedMantissa.ofMantissaAndAccuracy, h, hgt.ne'])

theorem fraction_shiftRightOne (hden : 0 < den) :
    (fraction num den).shiftRightOne = fraction num (den * 2) := by
  have hmod : num % (den * 2) = num % den + den * (num / den % 2) := Nat.mod_mul
  have hlt := Nat.mod_lt num hden
  apply eq_fraction
  · exact Nat.div_div_eq_div_mul num den 2
  · simp only [ExtendedMantissa.shiftRightOne, fraction, bne_iff_ne, hmod]
    rcases Nat.mod_two_eq_zero_or_one (num / den) with h | h <;> rw [h] <;> omega
  · simp only [ExtendedMantissa.shiftRightOne, fraction, Bool.or_eq_true, decide_eq_true_eq, hmod]
    rcases Nat.mod_two_eq_zero_or_one (num / den) with h | h <;> rw [h] <;> omega

theorem fraction_shiftRight (hden : 0 < den) (k : Nat) :
    fraction num den >>> k = fraction num (den * 2 ^ k) := by
  induction k with
  | zero => simp [HShiftRight.hShiftRight, Nat.repeat]
  | succ k ih =>
    change (fraction num den >>> k).shiftRightOne = _
    rw [ih, fraction_shiftRightOne (Nat.mul_pos hden (Nat.two_pow_pos k)), Nat.mul_assoc,
      Nat.pow_succ]

theorem roundedMantissa_eq (em : ExtendedMantissa) : em.roundedMantissa =
    if em.roundBit then if em.stickyBit then em.mantissa + 1 else em.mantissa + em.mantissa %
      2 else em.mantissa := by
  obtain ⟨m, r, s⟩ := em
  cases r <;> cases s <;> rfl

theorem fraction_roundedMantissa (hden : 0 < den) :
    (fraction num den).roundedMantissa = nearestEven num den := by
  rw [roundedMantissa_eq, fraction, nearestEven]
  simp only [decide_eq_true_eq]
  grind

end UnitSheet
