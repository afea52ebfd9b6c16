import Mathlib.Data.List.Forall2
import UnitSheet.Quantity.Arithmetic

namespace UnitSheet

theorem ok_not_error {ε α : Type} {a : α} : ¬ ∃ e : ε, (Except.ok a : Except ε α) = .error e := by
  intro ⟨e, h⟩
  cases h

/-- A computation over a list breaks down at a member of it. -/
theorem mapM_error_iff {ε α β : Type} {f : α → Except ε β} {as : List α} :
    (∃ e, as.mapM f = .error e) ↔ ∃ a ∈ as, ∃ e, f a = .error e := by
  induction as with
  | nil =>
    constructor
    · intro ⟨e, h⟩
      cases h
    · rintro ⟨a, ha, -⟩
      cases ha
  | cons a as ih =>
    rw [List.mapM_cons, List.exists_mem_cons_iff, ← ih]
    cases ha : f a with
    | error e => exact ⟨fun _ => .inl ⟨e, rfl⟩, fun _ => ⟨e, rfl⟩⟩
    | ok b =>
      cases has : as.mapM f with
      | error e => exact ⟨fun _ => .inr ⟨e, rfl⟩, fun _ => ⟨e, rfl⟩⟩
      | ok bs =>
        constructor
        · intro ⟨e, h⟩
          cases h
        · rintro (⟨e, h⟩ | ⟨e, h⟩) <;> cases h

theorem forall₂_of_mapM_ok {ε α β : Type} {f : α → Except ε β} {as : List α} {bs : List β}
    (h : as.mapM f = .ok bs) : List.Forall₂ (fun a b => f a = .ok b) as bs := by
  induction as generalizing bs with
  | nil =>
    cases h
    exact .nil
  | cons a as ih =>
    rw [List.mapM_cons] at h
    cases ha : f a with
    | error e =>
      rw [ha] at h
      cases h
    | ok b =>
      cases has : as.mapM f with
      | error e =>
        rw [ha, has] at h
        cases h
      | ok bs' =>
        rw [ha, has] at h
        cases h
        exact .cons ha (ih has)

theorem mapM_length {ε α β : Type} {f : α → Except ε β} {as : List α} {bs : List β}
    (h : as.mapM f = .ok bs) : bs.length = as.length :=
  (forall₂_of_mapM_ok h).length_eq.symm

namespace Dimension

variable {d : Dimension} {factor : Float}

/-- A finite factor brings an exponent of the unit beyond the doubles, or it is beyond them
already. -/
def Overflows (d : Dimension) (factor : Float) : Prop :=
  factor.isFinite = true ∧
    ∃ e ∈ d.exponents, (Float.ofInt e).isInf = true ∨ (Float.ofInt e * factor).isInf = true

theorem scaleExponent_error_iff {e : Int} : (∃ f, scaleExponent factor e = .error f) ↔
    (Float.ofInt e).isInf = true ∨ (Float.ofInt e * factor).isInf = true := by
  rw [scaleExponent]
  split
  · next h => exact ⟨fun _ => .inl h, fun _ => ⟨_, rfl⟩⟩
  · next h =>
    split
    · next h' => exact ⟨fun _ => .inr h', fun _ => ⟨_, rfl⟩⟩
    · next h' =>
      exact iff_of_false ok_not_error fun hor => hor.elim h h'

theorem ofExponents_of_length {es : List Int} (h : es.length = 7) :
    ∃ d, ofExponents es = .ok d := by
  match es, h with
  | [l, t, m, i, k, n, j], _ => exact ⟨_, rfl⟩

theorem scaled_error_iff : (∃ f, d.scaled factor = .error f) ↔ d.Overflows factor := by
  rw [scaled, Overflows]
  split
  · next hfinite =>
    simp only [hfinite, true_and, ← scaleExponent_error_iff, ← mapM_error_iff]
    cases hes : d.exponents.mapM (scaleExponent factor) with
    | error f => exact ⟨fun _ => ⟨f, rfl⟩, fun _ => ⟨f, rfl⟩⟩
    | ok es =>
      obtain ⟨d', hd'⟩ := ofExponents_of_length (mapM_length hes)
      change (∃ f, ofExponents es = .error f) ↔ _
      rw [hd']
      exact iff_of_false ok_not_error ok_not_error
  · next hfinite => exact iff_of_false ok_not_error fun h => hfinite h.1

end Dimension

namespace ComplexFloat

variable {z w base exponent : ComplexFloat} {r angle : Float}

def Remote (z : ComplexFloat) : Prop :=
  (hypotenuse z.re z.im).isInf = true ∧ z.re.isFinite = true ∧ z.im.isFinite = true

theorem modulus_error_iff : (∃ f, z.modulus = .error f) ↔ z.Remote := by
  rw [modulus, Remote]
  split
  · next h =>
    simp only [Bool.and_eq_true] at h
    exact ⟨fun _ => ⟨h.1.1, h.1.2, h.2⟩, fun _ => ⟨_, rfl⟩⟩
  · next h =>
    apply iff_of_false ok_not_error
    intro ⟨hinf, hre, him⟩
    exact h (by simp [hinf, hre, him])

theorem ofPolar_error_iff : (∃ f, ofPolar r angle = .error f) ↔
    angle.isFinite = false ∧ (r == 0) = false ∧ angle.isNaN = false := by
  rw [ofPolar]
  cases hfinite : angle.isFinite with
  | true =>
    simp only [if_true]
    split <;> simp
  | false =>
    cases hzero : r == 0 with
    | true => simp
    | false =>
      cases hnan : angle.isNaN with
      | true => simp
      | false => simp

/-- The base is remote, or the power has a finite length other than zero and an infinite angle. -/
def PowerBreaks (base exponent : ComplexFloat) : Prop :=
  base.isZero = false ∧ (base.Remote ∨ ∃ r, base.modulus = .ok r ∧
    (logPow base exponent r).re.exp.isFinite = true ∧
    ((logPow base exponent r).re.exp == 0) = false ∧
    (logPow base exponent r).im.isFinite = false ∧ (logPow base exponent r).im.isNaN = false)

theorem pow_error_iff : (∃ f, base.pow exponent = .error f) ↔ base.PowerBreaks exponent := by
  rw [pow, PowerBreaks, ← modulus_error_iff]
  cases hzero : base.isZero with
  | true => simp
  | false =>
    cases hr : base.modulus with
    | error f => exact ⟨fun _ => ⟨rfl, .inl ⟨f, rfl⟩⟩, fun _ => ⟨f, rfl⟩⟩
    | ok r =>
      simp only [Bool.false_eq_true, if_false, true_and, reduceCtorEq, exists_false, false_or,
        Except.ok.injEq, exists_eq_left']
      change (∃ f, (if (logPow base exponent r).re.exp.isFinite = true then
        ofPolar (logPow base exponent r).re.exp (logPow base exponent r).im
        else pure ⟨(logPow base exponent r).re.exp, 0⟩) = .error f) ↔ _
      split
      · next hfinite =>
        rw [ofPolar_error_iff]
        constructor
        · intro ⟨him, hsize, hnan⟩
          exact ⟨hfinite, hsize, him, hnan⟩
        · rintro ⟨-, hsize, him, hnan⟩
          exact ⟨him, hsize, hnan⟩
      · next hfinite => exact iff_of_false ok_not_error fun h => hfinite h.1

end ComplexFloat

namespace Quantity

variable {a b : Quantity}

/-- The unit or the number of a power leaves the doubles. -/
def PowerBreaks (a b : Quantity) : Prop :=
  (b.dimension.isNone = true ∧ a.dimension.Overflows b.value) ∨
    ((a.isComplex || b.isComplex) = true ∧ a.toComplex.PowerBreaks b.toComplex)

theorem powDimension_error_iff : (∃ f, powDimension a b = .error f) ↔
    b.dimension.isNone = true ∧ a.dimension.Overflows b.value := by
  rw [powDimension]
  split
  · next hnone => simp only [Dimension.scaled_error_iff, hnone, true_and]
  · next hnone => exact iff_of_false ok_not_error fun h => hnone h.1

theorem pow_error_iff : (∃ f, a.pow b = .error f) ↔ a.PowerBreaks b := by
  rw [PowerBreaks, ← powDimension_error_iff, ← ComplexFloat.pow_error_iff, pow]
  cases hd : powDimension a b with
  | error f => exact ⟨fun _ => .inl ⟨f, rfl⟩, fun _ => ⟨f, rfl⟩⟩
  | ok d =>
    have hbind {g : Dimension → Except Fault Quantity} : (Except.ok d >>= g) = g d := rfl
    rw [hbind]
    dsimp only
    split
    · next hcomplex =>
      simp only [reduceCtorEq, exists_false, false_or, hcomplex, true_and]
      cases a.toComplex.pow b.toComplex with
      | error f => exact ⟨fun _ => ⟨f, rfl⟩, fun _ => ⟨f, rfl⟩⟩
      | ok z => exact iff_of_false ok_not_error ok_not_error
    · next hreal =>
      apply iff_of_false ok_not_error
      rintro (h | ⟨hcomplex, -⟩)
      · exact ok_not_error h
      · exact hreal hcomplex

theorem arithmetic_error_iff {op : Arithmetic} :
    (∃ f, arithmetic op a b = .error f) ↔ op = .pow ∧ a.PowerBreaks b := by
  cases op with
  | pow => simp only [arithmetic, pow_error_iff, true_and]
  | _ => simp [arithmetic]

end Quantity

end UnitSheet
