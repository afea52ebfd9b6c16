import UnitSheet.Proofs.Decimal.Nearest
import UnitSheet.Proofs.Decimal.Normal

namespace UnitSheet.Binary

open Float.Model Float.Model.UnpackedFloat

/-- A quotient times a power of two to the nearest significand, which may need one more bit. -/
def rounded (negative : Bool) (num den : Nat) (e : Int) : Binary :=
  if nearestEven num den < 2 * leadingBit then ⟨negative, nearestEven num den, e⟩ else ⟨negative,
    leadingBit, e + 1⟩

variable {a b : Binary} {num den m k : Nat} {e : Int} {negative : Bool} {accuracy : Accuracy}

@[simp]
theorem rounded_negative : (rounded negative num den e).negative = negative := by
  unfold rounded
  split <;> rfl

theorem log2_eq (hlow : leadingBit ≤ m) (hhigh : m < 2 * leadingBit) : m.log2 = 52 :=
  (Nat.log2_eq_iff (Nat.lt_of_lt_of_le (by decide) hlow).ne').mpr ⟨hlow, hhigh⟩

theorem le_rounded_exponent : e ≤ (rounded negative num den e).exponent := by
  unfold rounded
  split
  · exact le_rfl
  · exact Int.le_add_of_nonneg_right (by decide)

def Full (num den : Nat) : Prop := leadingBit * den ≤ num ∧ num < 2 * leadingBit * den

theorem full_of_log2 (hden : 0 < den) (hlog : (num / den).log2 = 52 + k) :
    Full num (den * 2 ^ k) := by
  have hne : num / den ≠ 0 := by
    intro h
    rw [h, Nat.log2_zero] at hlog
    omega
  obtain ⟨hlow, hhigh⟩ := (Nat.log2_eq_iff hne).mp hlog
  constructor
  · calc leadingBit * (den * 2 ^ k) = 2 ^ (52 + k) * den := by
          rw [Nat.pow_add, leadingBit]
          ring
      _ ≤ num / den * den := Nat.mul_le_mul_right den hlow
      _ ≤ num := Nat.div_mul_le_self num den
  · calc num < 2 ^ (52 + k + 1) * den := (Nat.div_lt_iff_lt_mul hden).mp hhigh
      _ = 2 * leadingBit * (den * 2 ^ k) := by
          rw [Nat.pow_succ, Nat.pow_add, leadingBit]
          ring

namespace Full

variable (h : Full num den)
include h

theorem den_pos : 0 < den := by
  obtain ⟨hlow, hhigh⟩ := h
  by_contra hden
  rw [Nat.eq_zero_of_not_pos hden] at hlow hhigh
  omega

theorem le_nearestEven : leadingBit ≤ nearestEven num den := UnitSheet.le_nearestEven h.den_pos h.1

theorem nearestEven_le : nearestEven num den ≤ 2 * leadingBit := by
  refine Nat.le_of_lt_succ (nearestEven_lt ?_)
  have := h.2
  have := h.den_pos
  calc 2 * num + den < 2 * (2 * leadingBit * den) + 2 * den := by omega
    _ = 2 * (2 * leadingBit + 1) * den := by ring

theorem rounded_magnitude :
    (rounded negative num den e).magnitude = nearestEven num den * (2 : Rat) ^ e := by
  unfold rounded
  split
  · rfl
  · next hlarge =>
    have heq : nearestEven num den = 2 * leadingBit :=
      Nat.le_antisymm h.nearestEven_le (Nat.not_lt.mp hlarge)
    rw [heq, magnitude, zpow_add₀ two_ne_zero]
    push_cast
    ring

theorem rounded_normal (hleast : -1074 ≤ e) (hgreatest : e < 971) :
    (rounded negative num den e).Normal := by
  have hlow := h.le_nearestEven
  unfold rounded
  split
  · next hsmall =>
    exact ⟨log2_eq hlow hsmall, hleast, hgreatest.le⟩
  · have hleast' : -1074 ≤ e + 1 := hleast.trans (Int.le_add_of_nonneg_right (by decide))
    exact ⟨log2_eq (m := leadingBit) le_rfl (by decide), hleast', hgreatest⟩

end Full

theorem shiftToTargetExponent_eq (hlog : m.log2 = 52 + k) (he : -1074 ≤ e + k) :
    shiftToTargetExponent Format.binary64 m e accuracy =
      (ExtendedMantissa.ofMantissaAndAccuracy m accuracy >>> k, e + k) := by
  have htarget : Format.binary64.targetExponent (totalExponent m e) = e + k := by
    rw [Format.targetExponent, totalExponent, hlog]
    change max (((52 + k : Nat) : Int) + 1 + e - 53) (-1074) = e + k
    omega
  rw [shiftToTargetExponent, htarget, shiftToExponent, show (e + k - e).toNat = k by omega]

theorem roundWithAccuracy_eq_unpacked :
    roundWithAccuracy Format.binary64 (sign negative) m e accuracy =
    let first := shiftToTargetExponent Format.binary64 m e accuracy
    let second := shiftToTargetExponent Format.binary64 first.1.roundedMantissa first.2 .exact
    unpacked ⟨negative, second.1.mantissa, second.2⟩ := by
  rw [roundWithAccuracy]
  dsimp only
  split
  · next h => rw [unpacked_of_eq_zero h]
  · next h => rw [unpacked_of_pos (Nat.pos_of_ne_zero h)]

theorem roundWithAccuracy_eq (hden : 0 < den) (hlog : (num / den).log2 = 52 + k)
    (he : -1074 ≤ e + k)
    (haccuracy : ExtendedMantissa.ofMantissaAndAccuracy (num / den) accuracy = fraction num den) :
    roundWithAccuracy Format.binary64 (sign negative) (num / den) e accuracy =
      (rounded negative num (den * 2 ^ k) (e + k)).unpacked := by
  have hfull := full_of_log2 hden hlog
  rw [roundWithAccuracy_eq_unpacked, shiftToTargetExponent_eq hlog he, haccuracy,
    fraction_shiftRight hden]
  dsimp only
  rw [fraction_roundedMantissa hfull.den_pos, rounded]
  -- A significand that has become too long by rounding is shifted once more.
  split
  · next hsmall =>
    rw [shiftToTargetExponent_eq (k := 0) (log2_eq hfull.le_nearestEven hsmall) (by omega)]
    exact congrArg unpacked (congrArg (Binary.mk _ _) (Int.add_zero _))
  · next hlarge =>
    have heq : nearestEven num (den * 2 ^ k) = 2 * leadingBit :=
      Nat.le_antisymm hfull.nearestEven_le (Nat.not_lt.mp hlarge)
    have hlog' : (2 * leadingBit).log2 = 52 + 1 := Nat.log2_two_pow (n := 53)
    rw [heq, shiftToTargetExponent_eq hlog' (by omega)]
    rfl

theorem roundWithAccuracy_exact (hlog : m.log2 = 52 + k) (he : -1074 ≤ e + k) :
    roundWithAccuracy Format.binary64
      (sign negative) m e .exact = (rounded negative m (2 ^ k) (e + k)).unpacked := by
  rw [← Nat.div_one m] at hlog
  have haccuracy : ExtendedMantissa.ofMantissaAndAccuracy (m / 1) .exact = fraction m 1 := by
    rw [Nat.div_one, fraction_one]
  have h : roundWithAccuracy Format.binary64 (sign negative) (m / 1) e .exact = _ :=
    roundWithAccuracy_eq Nat.one_pos hlog he haccuracy
  rwa [Nat.div_one, Nat.one_mul] at h

def whole (negative : Bool) (n : Nat) : Binary := ⟨negative, n * 2 ^ (52 - n.log2), n.log2 - 52⟩

variable {n : Nat}

theorem log2_le (hpos : 0 < n) (hn : n < 2 ^ 53) : n.log2 ≤ 52 :=
  Nat.le_of_lt_succ ((Nat.log2_lt hpos.ne').mpr hn)

theorem log2_mul_pow (hpos : 0 < n) (j : Nat) : (n * 2 ^ j).log2 = n.log2 + j := by
  obtain ⟨hlow, hhigh⟩ := (Nat.log2_eq_iff hpos.ne').mp rfl
  rw [Nat.log2_eq_iff (Nat.mul_pos hpos (Nat.two_pow_pos j)).ne', Nat.add_right_comm, Nat.pow_add,
    Nat.pow_add]
  exact ⟨Nat.mul_le_mul_right _ hlow, Nat.mul_lt_mul_of_pos_right hhigh (Nat.two_pow_pos j)⟩

theorem whole_normal (hpos : 0 < n) (hn : n < 2 ^ 53) : (whole negative n).Normal := by
  have hlog := log2_le hpos hn
  refine ⟨?_, ?_, ?_⟩
  · rw [whole, log2_mul_pow hpos]
    omega
  · change -1074 ≤ (n.log2 : Int) - 52
    omega
  · change (n.log2 : Int) - 52 ≤ 971
    omega

theorem whole_magnitude (hpos : 0 < n) (hn : n < 2 ^ 53) : (whole negative n).magnitude = n := by
  have hlog := log2_le hpos hn
  have hpow : (2 : Rat) ^ (52 - n.log2) * (2 : Rat) ^ ((n.log2 : Int) - 52) = 1 := by
    rw [← zpow_natCast, ← zpow_add₀ two_ne_zero, show ((52 - n.log2 : Nat) : Int) +
      ((n.log2 : Int) - 52) = 0 by omega, zpow_zero]
  rw [magnitude, whole]
  push_cast
  rw [mul_assoc, hpow, mul_one]

theorem one_eq : (1 : Float) = (whole false 1).toFloat := by
  decide

theorem sign_mul (s t : Bool) : sign s * sign t = sign (s != t) := by
  cases s <;> cases t <;> rfl

theorem sign_div (s t : Bool) : sign s / sign t = sign (s != t) := by
  cases s <;> cases t <;> rfl

/-- The product of two doubles keeps 53 bits of the product of the significands. -/
def product (a b : Binary) (k : Nat) : Binary :=
  rounded (a.negative != b.negative) (a.significand * b.significand) (2 ^ k)
    (a.exponent + b.exponent + k)

theorem toFloat_mul (ha : a.Normal) (hb : b.Normal)
    (hlog : (a.significand * b.significand).log2 = 52 + k)
    (he : -1074 ≤ a.exponent + b.exponent + k) :
    a.toFloat * b.toFloat = (product a b k).toFloat := by
  change Float.ofModel (.pack
    (UnpackedFloat.mul Format.binary64 a.toFloat.toModel.unpack b.toFloat.toModel.unpack)) = _
  rw [ha.unpack_toFloat, hb.unpack_toFloat, ha.unpacked_eq, hb.unpacked_eq, UnpackedFloat.mul,
    sign_mul, roundWithAccuracy_exact hlog he]
  rfl

theorem exists_product (ha : a.Normal) (hb : b.Normal) (he : -1074 ≤ a.exponent + b.exponent) :
    ∃ k, Full (a.significand * b.significand) (2 ^ k) ∧
      a.toFloat * b.toFloat = (product a b k).toFloat := by
  have hlong : 52 ≤ (a.significand * b.significand).log2 := by
    refine (Nat.le_log2 (Nat.mul_pos ha.significand_pos hb.significand_pos).ne').mpr ?_
    exact ha.le_significand.trans (Nat.le_mul_of_pos_right _ hb.significand_pos)
  obtain ⟨k, hk⟩ := Nat.exists_eq_add_of_le hlong
  have hfull := full_of_log2 Nat.one_pos ((congrArg Nat.log2 (Nat.div_one _)).trans hk)
  rw [Nat.one_mul] at hfull
  exact ⟨k, hfull, toFloat_mul ha hb hk (by omega)⟩

/-- The quotient of two doubles keeps 53 bits of the quotient of the significands. -/
def ratio (a b : Binary) (k : Nat) : Binary :=
  rounded (a.negative != b.negative) (a.significand * 2 ^ 53) (b.significand * 2 ^ k)
    (a.exponent - b.exponent - 53 + k)

theorem divCore_eq (ha : a.Normal) (hb : b.Normal) (he : -1074 ≤ a.exponent - b.exponent - 53) :
    divCore Format.binary64 a.significand a.exponent b.significand b.exponent =
      (a.significand * 2 ^ 53 / b.significand, a.exponent - b.exponent - 53,
        accuracyOfFraction (a.significand * 2 ^ 53 % b.significand) b.significand) := by
  have htarget : Format.binary64.targetExponent
      (totalExponent a.significand a.exponent - totalExponent b.significand b.exponent) =
        a.exponent - b.exponent - 53 := by
    rw [Format.targetExponent, totalExponent, totalExponent, ha.significand, hb.significand]
    change max (((52 : Nat) : Int) + 1 + a.exponent - (((52 : Nat) : Int) + 1 + b.exponent) - 53)
      (-1074) = _
    omega
  rw [divCore, htarget, Int.min_eq_right (by omega),
    show (a.exponent - b.exponent - (a.exponent - b.exponent - 53)).toNat = 53 by
      omega, Nat.shiftLeft_eq]

theorem toFloat_div (ha : a.Normal) (hb : b.Normal)
    (hlog : (a.significand * 2 ^ 53 / b.significand).log2 = 52 + k)
    (he : -1074 ≤ a.exponent - b.exponent - 53) :
    a.toFloat / b.toFloat = (ratio a b k).toFloat := by
  change Float.ofModel (.pack
    (UnpackedFloat.div Format.binary64 a.toFloat.toModel.unpack b.toFloat.toModel.unpack)) = _
  rw [ha.unpack_toFloat, hb.unpack_toFloat, ha.unpacked_eq, hb.unpacked_eq, UnpackedFloat.div,
    sign_div, divCore_eq ha hb he]
  exact congrArg (fun u => Float.ofModel (.pack u))
    (roundWithAccuracy_eq hb.significand_pos hlog (by omega)
    (ofMantissaAndAccuracy_div hb.significand_pos))

theorem rounded_mul (hden : 0 < den) (hm : m < 2 * leadingBit) :
    rounded negative (m * den) den e = ⟨negative, m, e⟩ := by
  rw [rounded, nearestEven_mul m hden, if_pos hm]

theorem round_whole (hpos : 0 < n) (hn : n < 2 ^ 53) :
    UnpackedFloat.round Format.binary64 (sign negative) n 0 = (whole negative n).unpacked := by
  have hlog := log2_le hpos hn
  have hnormal : (whole negative n).Normal := whole_normal hpos hn
  have htarget : Format.binary64.targetExponent (totalExponent n 0) = (n.log2 : Int) - 52 := by
    rw [Format.targetExponent, totalExponent]
    change max ((n.log2 : Int) + 1 + 0 - 53) (-1074) = _
    omega
  have hexact :
      rounded negative (n * 2 ^ (52 - n.log2)) (2 ^ 0) ((n.log2 : Int) - 52 + (0 : Nat)) =
        whole negative n := by
    have h : rounded negative ((whole negative n).significand * 1) 1 ((n.log2 : Int) - 52) = _ :=
      rounded_mul Nat.one_pos hnormal.significand_lt
    rw [Nat.mul_one] at h
    rw [Nat.pow_zero, Int.natCast_zero, Int.add_zero]
    exact h
  rw [UnpackedFloat.round, htarget, decreaseExponent, show (0 - ((n.log2 : Int) - 52)).toNat =
    52 - n.log2 by omega, Nat.shiftLeft_eq]
  dsimp only
  rw [show (0 : Int) - (52 - n.log2 : Nat) = (n.log2 : Int) - 52 by omega, ← hexact]
  exact roundWithAccuracy_exact hnormal.significand (by omega)

theorem ofUInt64_eq (hpos : 0 < n) (hn : n < 2 ^ 53) :
    n.toUInt64.toFloat = (whole false n).toFloat := by
  have hword : n.toUInt64.toNat = n :=
    UInt64.toNat_ofNat'.trans (Nat.mod_eq_of_lt (hn.trans (by decide)))
  change Float.ofModel
    (.pack (UnpackedFloat.normalize Format.binary64 (n.toUInt64.toNat : Int) 0 .positive)) = _
  rw [hword, UnpackedFloat.normalize, Int.compare_eq_gt.mpr (Int.natCast_pos.mpr hpos)]
  have hround : UnpackedFloat.round Format.binary64 (sign false) n 0 = (whole false n).unpacked :=
    round_whole hpos hn
  exact congrArg (fun u => Float.ofModel (.pack u)) hround

theorem ofNat_eq (hpos : 0 < n) (hn : n < 2 ^ 53) : Float.ofNat n = (whole false n).toFloat := by
  have hsplit : Float.ofNat n = n.toUInt64.toFloat * Float.exactlyRepresentablePowersOfTen[0] :=
    dif_pos ⟨hn, by decide⟩
  have hone : Float.exactlyRepresentablePowersOfTen[0] = (whole false 1).toFloat := by decide
  have hnormal : (whole false n).Normal := whole_normal hpos hn
  have hlog : ((whole false n).significand * (whole false 1).significand).log2 = 52 + 52 :=
    (log2_mul_pow hnormal.significand_pos 52).trans (congrArg (· + 52) hnormal.significand)
  have hexact : product (whole false n) (whole false 1) 52 = whole false n := by
    have hwhole : whole false 1 = ⟨false, 2 ^ 52, -52⟩ := rfl
    rw [product, hwhole, rounded_mul (Nat.two_pow_pos 52) hnormal.significand_lt, Int.add_assoc]
    exact congrArg (Binary.mk _ _) (Int.add_zero _)
  have hleast := hnormal.least
  rw [hsplit, ofUInt64_eq hpos hn, hone,
    toFloat_mul hnormal (whole_normal (by decide) (by decide)) hlog ?_, hexact]
  change -1074 ≤ (whole false n).exponent + -52 + 52
  omega

theorem neg_sign (negative : Bool) : -sign negative = sign (!negative) := by
  cases negative <;> rfl

theorem toFloat_neg (hb : b.Normal) : -b.toFloat = toFloat { b with negative := !b.negative } := by
  change Float.ofModel (.pack (UnpackedFloat.neg b.toFloat.toModel.unpack)) = _
  rw [hb.unpack_toFloat, hb.unpacked_eq, UnpackedFloat.neg, neg_sign, toFloat, unpacked_of_pos]

theorem ofInt_eq {z : Int} (hz : z ≠ 0) (hn : z.natAbs < 2 ^ 53) :
    Float.ofInt z = (whole (z < 0) z.natAbs).toFloat := by
  cases z with
  | ofNat n =>
    have hpos : 0 < n := Nat.pos_of_ne_zero fun h => hz (congrArg Int.ofNat h)
    exact ofNat_eq hpos hn
  | negSucc n =>
    change -Float.ofNat (n + 1) = _
    rw [ofNat_eq n.succ_pos hn, toFloat_neg (whole_normal n.succ_pos hn),
      decide_eq_true (Int.negSucc_lt_zero n)]
    rfl

end UnitSheet.Binary
