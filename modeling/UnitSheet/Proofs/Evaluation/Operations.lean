import UnitSheet.Proofs.Computation

namespace UnitSheet.Evaluation

variable {s : Scope} {b b' : Bindings} {x : String} {v w : Value}

theorem lookup_some (h : s.get? b x = some v) : lookup s x b = (.ok v, b) := by
  rw [lookup, Computation.get_bind, h]
  rfl

theorem lookup_none (h : s.get? b x = none) :
    lookup s x b = (.error (.eval (.unknownName x)), b) := by
  rw [lookup, Computation.get_bind, h]
  rfl

theorem lookup_snd (s : Scope) (x : String) (b : Bindings) : (lookup s x b).2 = b := by
  cases h : s.get? b x with
  | some v => rw [lookup_some h]
  | none => rw [lookup_none h]

theorem lookup_eq_ok (h : lookup s x b = (.ok v, b')) : s.get? b x = some v ∧ b' = b := by
  cases hx : s.get? b x with
  | some w =>
    rw [lookup_some hx] at h
    cases h
    exact ⟨rfl, rfl⟩
  | none =>
    rw [lookup_none hx] at h
    cases h

theorem assignable_of_free (h : s.constants.contains x = false) :
    assignable s x b = (.ok (), b) := by
  rw [assignable, h]
  rfl

theorem assignable_of_constant (h : s.constants.contains x = true) :
    assignable s x b = (.error (.eval (.assignToConstant x)), b) := by
  rw [assignable, h]
  rfl

theorem assignable_snd (s : Scope) (x : String) (b : Bindings) : (assignable s x b).2 = b := by
  cases hx : s.constants.contains x with
  | false => rw [assignable_of_free hx]
  | true => rw [assignable_of_constant hx]

theorem assignable_eq_ok {u : Unit} (h : assignable s x b = (.ok u, b')) :
    s.constants.contains x = false ∧ b' = b := by
  cases hx : s.constants.contains x with
  | false =>
    rw [assignable_of_free hx] at h
    cases h
    exact ⟨rfl, rfl⟩
  | true =>
    rw [assignable_of_constant hx] at h
    cases h

theorem element_snd (v : Value) (b : Bindings) : (element v b).2 = b := by
  cases v <;> rfl

end UnitSheet.Evaluation
