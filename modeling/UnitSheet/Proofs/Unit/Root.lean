import UnitSheet.Builtin.Apply
import UnitSheet.Proofs.Decimal.Reciprocal
import UnitSheet.Proofs.Quantity.Power
import UnitSheet.Proofs.Value.Scalar

namespace UnitSheet

namespace Dimension

variable {d : Dimension} {es : List Int} {n : Nat}

def power (d : Dimension) (n : Nat) : Dimension := zipWith (fun e _ => e * n) d d

theorem power_exponents (d : Dimension) (n : Nat) :
    (d.power n).exponents = d.exponents.map (· * (n : Int)) := rfl

theorem exponents_of_ofExponents (h : ofExponents es = .ok d) : d.exponents = es := by
  unfold ofExponents at h
  split at h
  · cases h
    rfl
  · cases h

theorem scaleExponent_zero {factor : Float} (h : factor.isFinite = true) :
    scaleExponent factor 0 = .ok 0 := by
  have hproduct : ∃ s, Float.ofInt 0 * factor = .ofModel (.pack (.zero s)) := by
    change factor.toModel.unpack.isFinite = true at h
    change ∃ s, Float.ofModel (.pack (.mul .binary64 (.zero .positive) factor.toModel.unpack)) = _
    cases hfactor : factor.toModel.unpack with
    | zero s => exact ⟨_, rfl⟩
    | finite s m e hm => exact ⟨_, rfl⟩
    | _ =>
      rw [hfactor] at h
      cases h
  obtain ⟨s, hs⟩ := hproduct
  have hparts : ∃ negative, Binary.ofFloat (.ofModel (.pack (.zero s))) = ⟨negative, 0, -1074⟩ := by
    cases s <;> exact ⟨_, rfl⟩
  obtain ⟨negative, hparts⟩ := hparts
  have htruncate : truncate (.ofModel (.pack (.zero s))) = 0 := by
    rw [truncate, hparts, Binary.magnitude, Nat.cast_zero, zero_mul]
    cases negative <;> rfl
  have hinf : (Float.ofModel (.pack (.zero s))).isInf = false := by cases s <;> rfl
  have hinf' : (Float.ofInt 0).isInf = false := by decide
  rw [scaleExponent, hs, htruncate, hinf, hinf']
  rfl

theorem scaleExponent_root {e : Int} (he : e ≠ 0) (hn : 0 < n) (hsmall : n * e.natAbs < 2 ^ 53) :
    ∃ e', scaleExponent (1 / Float.ofNat n) (e * n) = .ok e' ∧ (e' = e ↔ Recovers n e.natAbs) := by
  obtain ⟨p, hp, hproduct, htruncate⟩ := Binary.ofInt_mul_reciprocal he hn hsmall
  have hnatAbs : (e * n).natAbs = n * e.natAbs := by
    rw [Int.natAbs_mul, Int.natAbs_natCast, Nat.mul_comm]
  have hne : e * n ≠ 0 := Int.mul_ne_zero he (by omega)
  have hinf : (Float.ofInt (e * n)).isInf = false := by
    rw [Binary.ofInt_eq hne (hnatAbs ▸ hsmall)]
    exact (Binary.whole_normal (Int.natAbs_pos.mpr hne) (hnatAbs ▸ hsmall)).isInf_toFloat
  refine ⟨truncate p.toFloat, ?_, htruncate⟩
  rw [scaleExponent, hproduct, hp.isInf_toFloat, hinf]
  rfl

theorem mapM_eq_iff {f : Int → Except Fault Int} {recovers : Int → Prop}
    (h : ∀ e ∈ es, ∃ e', f (e * n) = .ok e' ∧ (e' = e ↔ recovers e)) :
    ∃ es', (es.map (· * (n : Int))).mapM f = .ok es' ∧ es'.length = es.length ∧
      (es' = es ↔ ∀ e ∈ es, recovers e) := by
  induction es with
  | nil => exact ⟨[], rfl, rfl, by simp⟩
  | cons e es ih =>
    obtain ⟨e', he, hiff⟩ := h e List.mem_cons_self
    obtain ⟨es', hes, hlength, hiffs⟩ := ih fun e he => h e (List.mem_cons_of_mem _ he)
    refine ⟨e' :: es', ?_, congrArg (· + 1) hlength, ?_⟩
    · rw [List.map_cons, List.mapM_cons, he, hes]
      rfl
    · rw [List.cons.injEq, hiff, hiffs, List.forall_mem_cons]

theorem scaled_none (factor : Float) : scaled none factor = .ok none := by
  rw [scaled]
  split
  · next h =>
    have hexponents : none.exponents.mapM (scaleExponent factor) = .ok none.exponents := by
      simp only [exponents, none, List.mapM_cons, List.mapM_nil, scaleExponent_zero h]
      rfl
    rw [hexponents]
    rfl
  · rfl

theorem power_none (n : Nat) : none.power n = none := by
  simp [power, zipWith, none]

theorem quotient_one (hn : 0 < n) (hsmall : n < 2 ^ 53) :
    quotient 1 (Float.ofNat n) = 1 / Float.ofNat n := by
  rw [quotient, Binary.ofNat_eq hn hsmall, (Binary.whole_normal hn hsmall).toFloat_beq_zero]
  rfl

/-- A unit comes back from the root of its power exactly if each exponent does. -/
theorem scaled_root (hn : 0 < n) (hsmall : ∀ e ∈ d.exponents, n * e.natAbs < 2 ^ 53) :
    ∃ d', (d.power n).scaled (quotient 1 (Float.ofNat n)) = .ok d' ∧
      (d' = d ↔ ∀ e ∈ d.exponents, e ≠ 0 → Recovers n e.natAbs) := by
  by_cases hexponents : ∃ e ∈ d.exponents, e ≠ 0
  · obtain ⟨e₀, hmem, he₀⟩ := hexponents
    have hn' : n < 2 ^ 53 :=
      (Nat.le_mul_of_pos_right n (Int.natAbs_pos.mpr he₀)).trans_lt (hsmall e₀ hmem)
    obtain ⟨r, hr, hreciprocal, -⟩ := Binary.one_div_eq hn hn'
    have hfinite : (1 / Float.ofNat n).isFinite = true := by rw [hreciprocal, hr.isFinite_toFloat]
    have heach : ∀ e ∈ d.exponents, ∃ e', scaleExponent (1 / Float.ofNat n) (e * n) = .ok e' ∧
        (e' = e ↔ e ≠ 0 → Recovers n e.natAbs) := by
      intro e he
      by_cases hzero : e = 0
      · subst hzero
        exact ⟨0, by rw [Int.zero_mul, scaleExponent_zero hfinite], by simp⟩
      · obtain ⟨e', he', hiff⟩ := scaleExponent_root hzero hn (hsmall e he)
        exact ⟨e', he', by simp [hzero, hiff]⟩
    obtain ⟨es, hes, hlength, hiff⟩ := mapM_eq_iff heach
    obtain ⟨d', hd'⟩ := ofExponents_of_length hlength
    refine ⟨d', ?_, ?_⟩
    · rw [quotient_one hn hn', scaled, if_pos hfinite, power_exponents, hes]
      exact hd'
    · rw [← hiff, ← exponents_of_ofExponents hd']
      exact ⟨congrArg exponents, exponents_injective⟩
  · have hzero (e : Int) (he : e ∈ d.exponents) : e = 0 := by
      by_contra hne
      exact hexponents ⟨e, he, hne⟩
    have hnone : d = none := by
      apply exponents_injective
      simp only [exponents, List.forall_mem_cons, List.not_mem_nil, false_imp_iff, implies_true,
        and_true] at hzero
      simp [exponents, none, hzero]
    refine ⟨none, ?_, iff_of_true hnone.symm fun e he hne => absurd (hzero e he) hne⟩
    rw [hnone, power_none, scaled_none]

theorem scaled_root_of_le (hn : 0 < n) (hn' : n ≤ 48)
    (hsmall : ∀ e ∈ d.exponents, n * e.natAbs < 2 ^ 53) :
    (d.power n).scaled (quotient 1 (Float.ofNat n)) = .ok d := by
  obtain ⟨d', hd', hiff⟩ := scaled_root hn hsmall
  rw [hd', hiff.mpr fun e _ he => recovers_of_le hn hn' (Int.natAbs_pos.mpr he)]

end Dimension

namespace Builtin

open Value

variable {n : Nat} {d d' : Dimension} {v : Float} {figures : Nat} {index : Quantity}

theorem root_eq_ok (h : d.scaled (quotient 1 index.value) = .ok d') :
    root (scalar ⟨v, 0, d, figures⟩) (some (scalar index)) =
      .ok (scalar ⟨power v (quotient 1 index.value), 0, d', figures⟩) := by
  have hpow : Quantity.pow ⟨v, 0, d, figures⟩ ⟨quotient 1 index.value, 0, .none, 0⟩ =
      .ok ⟨power v (quotient 1 index.value), 0, d', figures⟩ := by
    have hdimension : Quantity.powDimension
        ⟨v, 0, d, figures⟩ ⟨quotient 1 index.value, 0, .none, 0⟩ = .ok d' :=
      (if_pos rfl).trans h
    have hreal : ((0 : Float) != 0) = false := by decide
    rw [Quantity.pow, hdimension, Quantity.isComplex, Quantity.isComplex, hreal]
    change Except.ok
      (Quantity.mk (power v (quotient 1 index.value)) 0 d' (combineFigures figures 0)) = _
    rw [combineFigures_zero]
  change orFault (scalar <$> Quantity.pow ⟨v, 0, d, figures⟩ ⟨quotient 1 index.value, 0, .none, 0⟩)
    = _
  rw [hpow]
  rfl

/-- A root undoes a power of a unit exactly where the rounded reciprocal of the index brings back
each exponent. -/
theorem root_dimension_eq_iff (d : Dimension) (v : Float) (figures : Nat) (index : Quantity)
    (hn : 0 < n)
    (hsmall : ∀ e ∈ d.exponents, n * e.natAbs < 2 ^ 53) (hindex : index.value = Float.ofNat n) :
    ∃ q, root (scalar ⟨v, 0, d.power n, figures⟩) (some (scalar index)) = .ok (scalar q) ∧
      (q.dimension = d ↔ ∀ e ∈ d.exponents, e ≠ 0 → Recovers n e.natAbs) := by
  obtain ⟨d', hd', hiff⟩ := Dimension.scaled_root hn hsmall
  rw [← hindex] at hd'
  exact ⟨_, root_eq_ok hd', hiff⟩

/-- The root of index 49 brings back fifth powers. -/
theorem root_fifth_powers :
    ∃ q, root (scalar ⟨2, 0, { length := 245, time := -245 }, 3⟩)
      (some (scalar ⟨49, 0, .none, 0⟩)) =
      .ok (scalar q) ∧ q.dimension = { length := 5, time := -5 } := by
  obtain ⟨q, hq, hiff⟩ := root_dimension_eq_iff { length := 5, time := -5 } 2 3 ⟨49, 0, .none, 0⟩
    (show 0 < 49 by decide) (by decide) rfl
  exact ⟨q, hq, hiff.mpr (by decide)⟩

/-- It does not bring back the metre itself, although the index times its exponent is far from the
bounds of doubles. -/
theorem root_loses_metre : (∀ e ∈ Dimension.exponents { length := 1 }, 49 * e.natAbs < 2 ^ 53) ∧
    ∃ q, root (scalar ⟨1, 0, Dimension.power { length := 1 } 49, 0⟩)
      (some (scalar ⟨Float.ofNat 49, 0, .none, 0⟩)) =
      .ok (scalar q) ∧ q.dimension ≠ { length := 1 } := by
  have hsmall : ∀ e ∈ Dimension.exponents { length := 1 }, 49 * e.natAbs < 2 ^ 53 := by decide
  obtain ⟨d', hd', hiff⟩ := Dimension.scaled_root (show 0 < 49 by decide) hsmall
  exact ⟨hsmall, _, root_eq_ok hd', fun h => absurd (hiff.mp h) (by decide)⟩

end Builtin

end UnitSheet
