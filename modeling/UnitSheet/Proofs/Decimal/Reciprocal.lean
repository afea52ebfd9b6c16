import UnitSheet.Proofs.Decimal.Rounding

namespace UnitSheet

/-- The double nearest to `1 / n`, as a multiple of `2 ^ -(53 + log2 n)`. -/
def reciprocal (n : Nat) : Nat := nearestEven (2 ^ (53 + n.log2)) n

/-- What `n` times the double nearest to `1 / n` lacks of one, as a multiple of `2 ^ -(53 + log2
n)`. -/
def shortfall (n : Nat) : Nat := 2 ^ (53 + n.log2) - n * reciprocal n

/-- The product of `n * c` and the rounded reciprocal of `n` lacks at most half of the distance from
`c` to the next double below it. That distance is half as long if `c` is a power of two. -/
def Recovers (n c : Nat) : Prop :=
  (if c = 2 ^ c.log2 then 2 * c else c) * shortfall n ≤ 2 ^ (n.log2 + c.log2)

instance (n c : Nat) : Decidable (Recovers n c) := Nat.decLe _ _

variable {n c m k w : Nat}

theorem recovers_of_shortfall (hc : 0 < c) (h : 2 * shortfall n ≤ 2 ^ n.log2) : Recovers n c := by
  obtain ⟨hlow, hhigh⟩ := (Nat.log2_eq_iff hc.ne').mp rfl
  unfold Recovers
  split
  · next heq =>
    calc 2 * c * shortfall n = 2 * shortfall n * c := by ring
      _ ≤ 2 ^ n.log2 * 2 ^ c.log2 := Nat.mul_le_mul h heq.le
      _ = 2 ^ (n.log2 + c.log2) := (Nat.pow_add ..).symm
  · refine Nat.le_of_mul_le_mul_left (c := 2) ?_ Nat.two_pos
    calc 2 * (c * shortfall n) = 2 * shortfall n * c := by ring
      _ ≤ 2 ^ n.log2 * 2 ^ (c.log2 + 1) := Nat.mul_le_mul h hhigh.le
      _ = 2 * 2 ^ (n.log2 + c.log2) := by ring

theorem recovers_of_le (hn : 0 < n) (hn' : n ≤ 48) (hc : 0 < c) : Recovers n c := by
  have hshortfall : ∀ i < 48, 2 * shortfall (i + 1) ≤ 2 ^ (i + 1).log2 := by decide
  have h := hshortfall (n - 1) (by omega)
  rw [Nat.sub_add_cancel hn] at h
  exact recovers_of_shortfall hc h

example : ¬ Recovers 49 1 ∧ Recovers 49 5 := by decide

theorem reciprocal_bounds (hn : 0 < n) :
    2 * (n * reciprocal n) ≤ 2 * 2 ^ (53 + n.log2) + n ∧ 2 * 2 ^
      (53 + n.log2) ≤ 2 * (n * reciprocal n) + n := by
  have hcomm : 2 * reciprocal n * n = 2 * (n * reciprocal n) := by ring
  rw [← hcomm]
  exact ⟨nearestEven_le _ n, le_nearestEven_add hn⟩

theorem mul_reciprocal_bounds (hn : 0 < n) (hsmall : n * c < 2 ^ 53) :
    2 * (c * (n * reciprocal n)) < (2 * c + 1) * 2 ^ (53 + n.log2) ∧
      2 * (c * 2 ^ (53 + n.log2)) < 2 * (c * (n * reciprocal n)) + 2 ^ (53 + n.log2) := by
  obtain ⟨hhigh, hlow⟩ := reciprocal_bounds hn
  have hpow : 2 ^ 53 ≤ 2 ^ (53 + n.log2) := Nat.pow_le_pow_right Nat.two_pos (Nat.le_add_right ..)
  have hhigh' := Nat.mul_le_mul_left c hhigh
  have hlow' := Nat.mul_le_mul_left c hlow
  constructor <;> nlinarith

theorem lt_of_pow_mul_lt {i j t : Nat} (h : 2 ^ i * t < 2 ^ j * t) : i < j :=
  (Nat.pow_lt_pow_iff_right Nat.one_lt_two).mp (Nat.lt_of_mul_lt_mul_right h)

theorem place_eq {x t j : Nat} (hlow : 2 ^ 52 * t ≤ x * 2 ^ w) (hhigh : x * 2 ^ w < 2 ^ 53 * t)
    (hbelow : x < 2 ^ j * t) (habove : 2 ^ j * t ≤ 2 * x) : w + j = 53 := by
  have hlower : 52 < w + j := by
    refine lt_of_pow_mul_lt (t := t) ?_
    calc 2 ^ 52 * t ≤ x * 2 ^ w := hlow
      _ < 2 ^ j * t * 2 ^ w := Nat.mul_lt_mul_of_pos_right hbelow (Nat.two_pow_pos w)
      _ = 2 ^ (w + j) * t := by ring
  have hupper : w + j < 54 := by
    refine lt_of_pow_mul_lt (t := t) ?_
    calc 2 ^ (w + j) * t = 2 ^ j * t * 2 ^ w := by ring
      _ ≤ 2 * x * 2 ^ w := Nat.mul_le_mul_right _ habove
      _ = 2 * (x * 2 ^ w) := Nat.mul_assoc ..
      _ < 2 * (2 ^ 53 * t) := Nat.mul_lt_mul_of_pos_left hhigh Nat.two_pos
      _ = 2 ^ 54 * t := by ring
  omega

theorem leading_place {x t : Nat} (hc : 0 < c) (hlow : 2 ^ 52 * t ≤ x * 2 ^ w)
    (hhigh : x * 2 ^ w < 2 ^ 53 * t)
    (hbelow : x < c * t) (habove : 2 * (c * t) < 2 * x + t) :
    w + c.log2 = if c = 2 ^ c.log2 then 53 else 52 := by
  obtain ⟨hlog, hlog'⟩ := (Nat.log2_eq_iff hc.ne').mp rfl
  split
  · next heq =>
    have hone := Nat.mul_le_mul_right t hc
    refine place_eq hlow hhigh ?_ ?_
    · rwa [← heq]
    · rw [← heq]
      omega
  · next hne =>
    have hsucc : (2 ^ c.log2 + 1) * t ≤ c * t :=
      Nat.mul_le_mul_right t (Nat.lt_of_le_of_ne hlog (Ne.symm hne))
    have hplace : w + (c.log2 + 1) = 53 := by
      refine place_eq hlow hhigh (hbelow.trans_le (Nat.mul_le_mul_right t hlog'.le)) ?_
      rw [Nat.pow_succ, Nat.mul_right_comm]
      rw [Nat.succ_mul] at hsucc
      omega
    omega

theorem bounds_of_full {x t : Nat} (hfull : Binary.Full m (2 ^ k)) (ht : 0 < t)
    (hm : m * t = x * 2 ^ w * 2 ^ k) : 2 ^ 52 * t ≤ x * 2 ^ w ∧ x * 2 ^ w < 2 ^ 53 * t := by
  constructor
  · refine Nat.le_of_mul_le_mul_right ?_ (Nat.two_pow_pos k)
    calc 2 ^ 52 * t * 2 ^ k = 2 ^ 52 * 2 ^ k * t := Nat.mul_right_comm ..
      _ ≤ m * t := Nat.mul_le_mul_right t hfull.1
      _ = x * 2 ^ w * 2 ^ k := hm
  · refine Nat.lt_of_mul_lt_mul_right (a := 2 ^ k) ?_
    calc x * 2 ^ w * 2 ^ k = m * t := hm.symm
      _ < 2 ^ 53 * 2 ^ k * t := Nat.mul_lt_mul_of_pos_right hfull.2 ht
      _ = 2 ^ 53 * t * 2 ^ k := Nat.mul_right_comm ..

theorem two_le_of_short (hn : 0 < n) (hshort : n * reciprocal n < 2 ^ (53 + n.log2)) : 2 ≤ n := by
  have hne : n ≠ 1 := by
    rintro rfl
    exact absurd hshort (by decide)
  exact Nat.lt_of_le_of_ne hn (Ne.symm hne)

theorem shifted_even (hc : 0 < c) (hn : 0 < n) (hsmall : n * c < 2 ^ 53)
    (hshort : n * reciprocal n < 2 ^ (53 + n.log2))
    (hplace : w + c.log2 = if c = 2 ^ c.log2 then 53 else 52) : c * 2 ^ w % 2 = 0 := by
  have hdouble : 2 * c ≤ n * c := Nat.mul_le_mul_right c (two_le_of_short hn hshort)
  have hlog : c.log2 < 52 := (Nat.log2_lt hc.ne').mpr (by omega)
  obtain ⟨j, rfl⟩ : ∃ j, w = j + 1 := Nat.exists_eq_succ_of_ne_zero (by split at hplace <;> omega)
  rw [Nat.pow_succ, ← Nat.mul_assoc, Nat.mul_mod_left]

theorem le_rounded_iff (hc : 0 < c) (hn : 0 < n) (hsmall : n * c < 2 ^ 53)
    (hfull : Binary.Full m (2 ^ k))
    (hm : m * 2 ^ (53 + n.log2) = c * (n * reciprocal n) * 2 ^ w * 2 ^ k) :
    c * 2 ^ w ≤ nearestEven m (2 ^ k) ↔ Recovers n c := by
  have hunit : 0 < 2 ^ (53 + n.log2) := Nat.two_pow_pos _
  have hk : 0 < 2 ^ k := Nat.two_pow_pos k
  rcases le_or_gt (2 ^ (53 + n.log2)) (n * reciprocal n) with hexact | hshort
  · have hzero : shortfall n = 0 := Nat.sub_eq_zero_of_le hexact
    refine iff_of_true (le_nearestEven hk ?_) (by rw [Recovers, hzero]; exact Nat.zero_le _)
    refine Nat.le_of_mul_le_mul_right ?_ hunit
    calc c * 2 ^ w * 2 ^ k * 2 ^ (53 + n.log2) = c * 2 ^ (53 + n.log2) * 2 ^ w * 2 ^ k := by ring
      _ ≤ c * (n * reciprocal n) * 2 ^ w * 2 ^ k := by gcongr
      _ = m * 2 ^ (53 + n.log2) := hm.symm
  · have hlack : n * reciprocal n + shortfall n = 2 ^ (53 + n.log2) := Nat.add_sub_of_le hshort.le
    have hsum : c * (n * reciprocal n) + c * shortfall n = c * 2 ^ (53 + n.log2) := by
      rw [← Nat.mul_add, hlack]
    obtain ⟨hlow, hhigh⟩ := bounds_of_full hfull hunit hm
    have hplace := leading_place hc hlow hhigh (Nat.mul_lt_mul_of_pos_left hshort hc)
      (mul_reciprocal_bounds hn hsmall).2
    -- Both sides of the comparison share the product itself; what is left compares the shortfall
    -- with half a unit.
    have hleft : 2 * (c * 2 ^ w) * 2 ^ k * 2 ^ (53 + n.log2) =
        (2 * 2 ^ w * (c * (n * reciprocal n)) + 2 * 2 ^ w * (c * shortfall n)) * 2 ^ k := by
      rw [← Nat.mul_add (2 * 2 ^ w), hsum]
      ring
    have hright : (2 * m + 2 ^ k) * 2 ^ (53 + n.log2) =
        (2 * 2 ^ w * (c * (n * reciprocal n)) + 2 ^ (53 + n.log2)) * 2 ^ k := by
      rw [Nat.add_mul, Nat.mul_assoc 2 m, hm]
      ring
    have hplaced : 2 * 2 ^ w * (c * shortfall n) * 2 ^ c.log2 = 2 * 2 ^ (w + c.log2) *
        (c * shortfall n) := by ring
    have hscaled : 2 ^ (53 + n.log2) * 2 ^ c.log2 = 2 ^ 53 * 2 ^ (n.log2 + c.log2) := by ring
    rw [even_le_nearestEven_iff hk (shifted_even hc hn hsmall hshort hplace),
      ← Nat.mul_le_mul_right_iff hunit, hleft,
      hright, Nat.mul_le_mul_right_iff hk, Nat.add_le_add_iff_left,
      ← Nat.mul_le_mul_right_iff (Nat.two_pow_pos c.log2), hplaced, hscaled, hplace, Recovers]
    split
    · rw [Nat.mul_assoc 2 c]
      omega
    · omega

theorem rounded_lt (hn : 0 < n) (hsmall : n * c < 2 ^ 53)
    (hm : m * 2 ^ (53 + n.log2) = c * (n * reciprocal n) * 2 ^ w * 2 ^ k) :
    nearestEven m (2 ^ k) < (c + 1) * 2 ^ w := by
  obtain ⟨hhigh, -⟩ := mul_reciprocal_bounds hn hsmall
  have hunit : 0 < 2 ^ (53 + n.log2) := Nat.two_pow_pos _
  have hw : 1 ≤ 2 ^ w := Nat.two_pow_pos w
  apply nearestEven_lt
  refine Nat.lt_of_mul_lt_mul_right (a := 2 ^ (53 + n.log2)) ?_
  calc (2 * m + 2 ^ k) * 2 ^ (53 + n.log2) = 2 * (m * 2 ^ (53 + n.log2)) + 2 ^ k *
        2 ^ (53 + n.log2) := by ring
    _ = (2 * (c * (n * reciprocal n)) * 2 ^ w + 2 ^ (53 + n.log2)) * 2 ^ k := by rw [hm]; ring
    _ < ((2 * c + 1) * 2 ^ (53 + n.log2) * 2 ^ w + 2 ^ (53 + n.log2) * 2 ^ w) * 2 ^ k := by
        refine Nat.mul_lt_mul_of_pos_right ?_ (Nat.two_pow_pos k)
        have h := Nat.mul_lt_mul_of_pos_right hhigh (Nat.two_pow_pos w)
        have h' := Nat.mul_le_mul_left (2 ^ (53 + n.log2)) hw
        omega
    _ = 2 * ((c + 1) * 2 ^ w) * 2 ^ k * 2 ^ (53 + n.log2) := by ring

theorem log2_quotient (hn : 0 < n) : ∃ k ≤ 1, (2 ^ (53 + n.log2) / n).log2 = 52 + k ∧
    nearestEven (2 ^ (53 + n.log2)) (n * 2 ^ k) * 2 ^ k = reciprocal n := by
  obtain ⟨hlow, hhigh⟩ := (Nat.log2_eq_iff hn.ne').mp rfl
  rcases hlow.eq_or_lt with heq | hlt
  · refine ⟨1, le_rfl, ?_, ?_⟩
    · rw [Nat.pow_add, heq, Nat.mul_div_left _ hn, Nat.log2_two_pow]
    · have hexact : reciprocal n = 2 ^ 53 := by
        rw [reciprocal, Nat.pow_add, heq, nearestEven_mul _ hn]
      have hhalf : 2 ^ (53 + n.log2) = 2 ^ 52 * (n * 2 ^ 1) := by
        rw [Nat.pow_add, heq]
        ring
      rw [hexact, hhalf, nearestEven_mul _ (Nat.mul_pos hn (Nat.two_pow_pos 1)), ← Nat.pow_add]
  · refine ⟨0, Nat.zero_le 1, ?_, ?_⟩
    · have hquotient : 2 ^ 52 ≤ 2 ^ (53 + n.log2) / n := by
        rw [Nat.le_div_iff_mul_le hn]
        calc 2 ^ 52 * n ≤ 2 ^ 52 * 2 ^ (n.log2 + 1) := Nat.mul_le_mul_left _ hhigh.le
          _ = 2 ^ (53 + n.log2) := by ring
      refine (Nat.log2_eq_iff (Nat.lt_of_lt_of_le (by decide) hquotient).ne').mpr ⟨hquotient, ?_⟩
      rw [Nat.div_lt_iff_lt_mul hn, Nat.pow_add]
      exact Nat.mul_lt_mul_of_pos_left hlt (by decide)
    · rw [Nat.pow_zero, Nat.mul_one, Nat.mul_one, reciprocal]

namespace Binary

theorem one_div_eq (hn : 0 < n) (hsmall : n < 2 ^ 53) :
    ∃ r : Binary, r.Normal ∧ 1 / Float.ofNat n = r.toFloat ∧
    r.negative = false ∧ -106 ≤ r.exponent ∧ r.magnitude * 2 ^ (53 + n.log2) = reciprocal n := by
  have hlog := log2_le hn hsmall
  have hone : (whole false 1).Normal := whole_normal (by decide) (by decide)
  have hwhole : (whole false n).Normal := whole_normal hn hsmall
  have hnum : (whole false 1).significand * 2 ^ 53 = 2 ^ (53 + n.log2) * 2 ^ (52 - n.log2) := by
    rw [← Nat.pow_add, show 53 + n.log2 + (52 - n.log2) = 105 by omega]
    decide
  obtain ⟨k, hk, hbits, hnearest⟩ := log2_quotient hn
  have hquotient : ((whole false 1).significand * 2 ^ 53 / (whole false n).significand).log2 =
      52 + k := by
    rw [hnum, ← hbits]
    exact congrArg Nat.log2 (Nat.mul_div_mul_right _ _ (Nat.two_pow_pos _))
  have hexponent : (whole false 1).exponent - (whole false n).exponent - 53 = -53 - n.log2 := by
    change (0 - 52 : Int) - (n.log2 - 52) - 53 = _
    omega
  have hfull : Full ((whole false 1).significand * 2 ^ 53) ((whole false n).significand * 2 ^ k) :=
    full_of_log2 hwhole.significand_pos hquotient
  refine ⟨ratio (whole false 1) (whole false n) k, hfull.rounded_normal ?_ ?_, ?_, rounded_negative,
    ?_, ?_⟩
  · omega
  · omega
  · rw [ofNat_eq hn hsmall, one_eq, toFloat_div hone hwhole hquotient (by omega)]
  · exact le_trans (by omega) le_rounded_exponent
  · have hden : (whole false n).significand * 2 ^ k = n * 2 ^ k * 2 ^ (52 - n.log2) :=
      Nat.mul_right_comm ..
    have hpow : (2 : Rat) ^ (-53 - (n.log2 : Int) + k) * 2 ^ (53 + n.log2) = 2 ^ k := by
      rw [← zpow_natCast (2 : Rat) (53 + n.log2), ← zpow_natCast (2 : Rat) k,
        ← zpow_add₀ two_ne_zero,
        show -53 - (n.log2 : Int) + k + (53 + n.log2 : Nat) = k by omega]
    rw [ratio, hfull.rounded_magnitude, hexponent, hnum, hden,
      nearestEven_mul_mul _ _ (Nat.two_pow_pos _), mul_assoc, hpow, ← hnearest]
    push_cast
    ring

theorem Full.exponent_nonpos {e : Int} (hfull : Full m (2 ^ k)) (h : (m : Rat) * 2 ^ e < 2 ^ 53) :
    e + k ≤ 0 := by
  by_contra hpos
  have hone : (2 : Rat) ^ (1 : Int) ≤ 2 ^ (e + k) := zpow_le_zpow_right₀ one_le_two (by omega)
  have hlow : (2 : Rat) ^ 52 * 2 ^ k ≤ m := by exact_mod_cast hfull.1
  have hzero : (0 : Rat) ≤ 2 ^ e := zpow_nonneg zero_le_two e
  refine absurd h (not_lt.mpr ?_)
  calc (2 : Rat) ^ 53 = 2 ^ 52 * 2 ^ (1 : Int) := by norm_num
    _ ≤ 2 ^ 52 * 2 ^ (e + k) := by gcongr
    _ = 2 ^ 52 * 2 ^ k * 2 ^ e := by
        rw [zpow_add₀ two_ne_zero, zpow_natCast]
        ring
    _ ≤ m * 2 ^ e := by gcongr

theorem floor_mul_zpow (n w : Nat) : ((n : Rat) * 2 ^ (-(w : Int))).floor = (n / 2 ^ w : Nat) := by
  rw [zpow_neg, zpow_natCast, ← div_eq_mul_inv]
  have h := Rat.floor_natCast_div_natCast n (2 ^ w)
  push_cast at h
  exact h

/-- The rounded product of a multiple of `n` and the reciprocal of `n`, without the fraction. -/
theorem floor_rounded_iff {e : Int} (hc : 0 < c) (hn : 0 < n) (hsmall : n * c < 2 ^ 53)
    (hfull : Full m (2 ^ k))
    (hvalue : (m : Rat) * 2 ^ e * 2 ^ (53 + n.log2) = c * (n * reciprocal n)) :
    e + k ≤ 0 ∧ ((nearestEven m (2 ^ k) * (2 : Rat) ^ (e + k)).floor = c ↔ Recovers n c) := by
  have hunit : (0 : Rat) < 2 ^ (53 + n.log2) := by positivity
  have hexponent : e + k ≤ 0 := by
    refine hfull.exponent_nonpos ((mul_lt_mul_iff_left₀ hunit).mp ?_)
    obtain ⟨hbelow, -⟩ := mul_reciprocal_bounds hn hsmall
    have hc' : 2 * c + 1 ≤ 2 * 2 ^ 53 := by
      have := (Nat.le_mul_of_pos_left c hn).trans_lt hsmall
      omega
    rw [hvalue]
    have h : c * (n * reciprocal n) < 2 ^ 53 * 2 ^ (53 + n.log2) := by
      have := hbelow.trans_le (Nat.mul_le_mul_right (2 ^ (53 + n.log2)) hc')
      omega
    exact_mod_cast h
  obtain ⟨w, hw⟩ := Int.exists_eq_neg_ofNat hexponent
  have hm : m * 2 ^ (53 + n.log2) = c * (n * reciprocal n) * 2 ^ w * 2 ^ k := by
    have hpow : (2 : Rat) ^ e * (2 ^ w * 2 ^ k) = 1 := by
      rw [← zpow_natCast (2 : Rat) w, ← zpow_natCast (2 : Rat) k, ← zpow_add₀ two_ne_zero,
        ← zpow_add₀ two_ne_zero,
        show e + (w + k) = 0 by omega, zpow_zero]
    have h : (m : Rat) * 2 ^ (53 + n.log2) = c * (n * reciprocal n) * 2 ^ w * 2 ^ k := by
      rw [← hvalue]
      linear_combination (-(m : Rat) * 2 ^ (53 + n.log2)) * hpow
    exact_mod_cast h
  refine ⟨hexponent, ?_⟩
  rw [hw, floor_mul_zpow, Nat.cast_inj, ← le_rounded_iff hc hn hsmall hfull hm,
    Nat.div_eq_iff (Nat.two_pow_pos w)]
  have hlt := rounded_lt hn hsmall hm
  rw [Nat.succ_mul] at hlt
  omega

/-- A multiple of `n` times the reciprocal of `n`, without the fraction. -/
theorem ofInt_mul_reciprocal {e : Int} (he : e ≠ 0) (hn : 0 < n) (hsmall : n * e.natAbs < 2 ^ 53) :
    ∃ p : Binary, p.Normal ∧ Float.ofInt (e * n) * (1 / Float.ofNat n) = p.toFloat ∧
      (truncate p.toFloat = e ↔ Recovers n e.natAbs) := by
  have hc : 0 < e.natAbs := Int.natAbs_pos.mpr he
  have hpos : 0 < n * e.natAbs := Nat.mul_pos hn hc
  have hn' : n < 2 ^ 53 := (Nat.le_mul_of_pos_right n hc).trans_lt hsmall
  have hnatAbs : (e * n).natAbs = n * e.natAbs := by
    rw [Int.natAbs_mul, Int.natAbs_natCast, Nat.mul_comm]
  obtain ⟨r, hr, hdiv, hsign, hleast, hreciprocal⟩ := one_div_eq hn hn'
  obtain ⟨a, ha, hofInt, hnegative, hamount, haleast⟩ : ∃ a : Binary, a.Normal ∧
      Float.ofInt (e * n) = a.toFloat ∧
      a.negative = decide (e * n < 0) ∧ a.magnitude = (n * e.natAbs : Nat) ∧ -52 ≤ a.exponent := by
    refine ⟨whole (e * n < 0) (n * e.natAbs), whole_normal hpos hsmall, ?_, rfl,
      whole_magnitude hpos hsmall, ?_⟩
    · rw [ofInt_eq (Int.mul_ne_zero he (by omega)) (hnatAbs ▸ hsmall), hnatAbs]
    · exact Int.le_sub_left_of_add_le (by omega)
  obtain ⟨k, hfull, hproduct⟩ := exists_product ha hr (by omega)
  have hvalue : (a.significand * r.significand : Nat) * (2 : Rat) ^ (a.exponent + r.exponent) *
      2 ^ (53 + n.log2) = e.natAbs * (n * reciprocal n) := by
    rw [magnitude] at hamount hreciprocal
    push_cast at hamount ⊢
    rw [zpow_add₀ two_ne_zero, ← hreciprocal]
    linear_combination (r.significand * (2 : Rat) ^ r.exponent * 2 ^ (53 + n.log2)) * hamount
  obtain ⟨hexponent, hfloor⟩ := floor_rounded_iff hc hn hsmall hfull hvalue
  have hnormal : (product a r k).Normal := hfull.rounded_normal (by omega) (by omega)
  refine ⟨product a r k, hnormal, by rw [hofInt, hdiv, hproduct], ?_⟩
  rw [hnormal.truncate_toFloat, product, rounded_negative, hfull.rounded_magnitude, ← hfloor, hsign,
    hnegative]
  rcases he.lt_or_gt with hlt | hgt
  · rw [decide_eq_true (Int.mul_neg_of_neg_of_pos hlt (Int.natCast_pos.mpr hn)), if_pos (by decide)]
    omega
  · rw [decide_eq_false (Int.not_lt.mpr (Int.mul_pos hgt (Int.natCast_pos.mpr hn)).le),
      if_neg (by decide)]
    omega

end Binary

end UnitSheet
