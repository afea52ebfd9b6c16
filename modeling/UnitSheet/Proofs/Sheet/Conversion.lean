import UnitSheet.Proofs.Sheet.Update

namespace UnitSheet

namespace Quantity

/-- A quantity in a unit of its own dimension; any other is kept. -/
def inUnit (q unit : Quantity) : Quantity :=
  if q.dimension = unit.dimension then
    { q with value := q.value / unit.value, imaginary := q.imaginary / unit.value }
  else q

end Quantity

namespace Value

/-- The quantities of a value in a unit. -/
def inUnit (v : Value) (unit : Quantity) : Value :=
  match v with
  | scalar q => .scalar (q.inUnit unit)
  | list qs => .list (qs.map (·.inUnit unit))
  | v => v

end Value

namespace Sheet

open Update UnitSheet.Computation

variable {item : Item} {s t : Sheet} {v w : Value}

theorem rescale_ok (text : String) (unit q : Quantity) (s : Sheet) :
    ∃ t, rescale text unit q s = (.ok (q.inUnit unit), t) := by
  rw [rescale, Quantity.inUnit]
  split
  · exact ⟨s, rfl⟩
  · exact ⟨_, rfl⟩

theorem mapM_rescale_ok (text : String) (unit : Quantity) (qs : List Quantity) (s : Sheet) :
    ∃ t, qs.mapM (rescale text unit) s = (.ok (qs.map (·.inUnit unit)), t) := by
  induction qs generalizing s with
  | nil => exact ⟨s, rfl⟩
  | cons q qs ih =>
    obtain ⟨u, hq⟩ := rescale_ok text unit q s
    obtain ⟨t, hqs⟩ := ih u
    refine ⟨t, ?_⟩
    rw [List.mapM_cons, bind_ok hq, bind_ok hqs]
    rfl

theorem rescaleValue_ok (text : String) (unit : Quantity) (v : Value) (s : Sheet) :
    ∃ t, rescaleValue text unit v s = (.ok (v.inUnit unit), t) := by
  cases v with
  | scalar q =>
    obtain ⟨t, hq⟩ := rescale_ok text unit q s
    refine ⟨t, ?_⟩
    rw [rescaleValue, map_eq_pure_bind, bind_ok hq]
    rfl
  | list qs =>
    obtain ⟨t, hqs⟩ := mapM_rescale_ok text unit qs s
    refine ⟨t, ?_⟩
    rw [rescaleValue, map_eq_pure_bind, bind_ok hqs]
    rfl
  | _ => exact ⟨s, rfl⟩

theorem express_eq_ok {text : String} {unit : Value} (h : express text v unit s = (.ok w, t)) :
    ∃ q, unit = .scalar q ∧ (q.value == 0) = false ∧ w = v.inUnit q := by
  cases unit with
  | scalar q =>
    rw [express] at h
    cases hq : q.value == 0 with
    | true =>
      rw [if_pos hq] at h
      cases h
    | false =>
      obtain ⟨u, hv⟩ := rescaleValue_ok text q v s
      rw [hq] at h
      cases hv.symm.trans h
      exact ⟨q, rfl, hq, rfl⟩
  | _ => cases h

/-- A value as an item shows it: as it is, or in the unit of the item, evaluated on the sheet that
the value leaves. -/
inductive Expressed (item : Item) (s : Sheet) (v : Value) : Value → Prop
  | kept (hb : isBlankText item.conversion = true) : Expressed item s v v
  | inUnit {c : Expr} {q : Quantity} {t : Sheet} (hb : isBlankText item.conversion = false)
      (hp : Expr.parse item.conversion s.nesting = .ok c) (hq : evaluate c s = (.ok (.scalar q), t))
      (hne : (q.value == 0) = false) : Expressed item s v (v.inUnit q)

theorem Expressed.eq_of_blank (h : Expressed item s v w) (hb : isBlankText item.conversion = true) :
    w = v := by
  cases h with
  | kept => rfl
  | inUnit hb' =>
    rw [hb] at hb'
    cases hb'

theorem convert_eq_ok (h : convert item v s = (.ok w, t)) : Expressed item s v w := by
  cases hb : isBlankText item.conversion with
  | true =>
    rw [convert_of_blank hb] at h
    cases h
    exact .kept hb
  | false =>
    cases hp : Expr.parse item.conversion s.nesting with
    | error stop =>
      rw [convert_of_not_parsed hb hp] at h
      cases h
    | ok c =>
      rw [convert_of_parsed hb hp] at h
      obtain ⟨unit, u, hc, h⟩ := bind_eq_ok_iff.mp h
      obtain ⟨q, rfl, hne, rfl⟩ := express_eq_ok h
      exact .inUnit hb hp hc hne

theorem evaluateParsed_eq_ok {e : Expr} (h : evaluateParsed item e s = (.ok w, t)) :
    ∃ v u, evaluate e s = (.ok v, u) ∧ Expressed item u v w := by
  obtain ⟨v, u, hv, h⟩ := bind_eq_ok_iff.mp h
  exact ⟨v, u, hv, convert_eq_ok h⟩

end Sheet

end UnitSheet
