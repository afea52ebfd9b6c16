import UnitSheet.Builtin.Apply
import UnitSheet.Proofs.Quantity.Power

namespace UnitSheet

@[simp]
theorem Stop.eval_ne_fault (e : EvalError) (k : Fault) : Stop.eval e ≠ .fault k := by
  intro h
  cases h

namespace Value

variable {v w : Value}

def pairs : Value → Value → List (Quantity × Quantity)
  | scalar a, scalar b => [(a, b)]
  | scalar a, list bs => bs.map fun b => (a.real, b.real)
  | list as, scalar b => as.map fun a => (a.real, b.real)
  | list as, list bs => (as.zip bs).map fun p => (p.1.real, p.2.real)
  | _, _ => []

theorem orFault_map_fault_iff {α β : Type} {f : α → β} {r : Except Fault α} :
    (∃ k, orFault (f <$> r) = .error (.fault k)) ↔ ∃ k, r = .error k := by
  cases r with
  | error k => exact ⟨fun _ => ⟨k, rfl⟩, fun _ => ⟨k, rfl⟩⟩
  | ok a =>
    apply iff_of_false _ ok_not_error
    intro ⟨k, hk⟩
    cases hk

theorem broadcast_fault_iff {f : Quantity → Quantity → Except Fault Quantity} {symbol : String} :
    (∃ k, broadcast f symbol v w = .error (.fault k)) ↔
    ∃ p ∈ pairs v w, ∃ k, f p.1 p.2 = .error k := by
  cases v with
  | scalar a =>
    cases w with
    | scalar b => simp [broadcast, orFault_map_fault_iff, pairs]
    | list bs => simp [broadcast, orFault_map_fault_iff, mapM_error_iff, pairs]
    | _ => simp [broadcast, pairs]
  | list as =>
    cases w with
    | scalar b => simp [broadcast, orFault_map_fault_iff, mapM_error_iff, pairs]
    | list bs => simp [broadcast, orFault_map_fault_iff, mapM_error_iff, pairs]
    | _ => simp [broadcast, pairs]
  | _ => simp [broadcast, pairs]

/-- A power breaks down for quantities that the base and the exponent bring together. -/
def PowerBreaks (v w : Value) : Prop := ∃ p ∈ pairs v w, p.1.PowerBreaks p.2

theorem arithmetic_fault_iff {op : Arithmetic} :
    (∃ k, arithmetic op v w = .error (.fault k)) ↔ op = .pow ∧ v.PowerBreaks w := by
  simp only [arithmetic, broadcast_fault_iff, Quantity.arithmetic_error_iff, PowerBreaks]
  grind

theorem map_not_fault {f : Quantity → Quantity} {operation : String} (k : Fault) :
    map f operation v ≠ .error (.fault k) := by
  cases v <;> simp [map]

theorem quantity_not_fault {role : String} (k : Fault) : v.quantity role ≠ .error (.fault k) := by
  cases v <;> simp [quantity]

theorem compare_not_fault {op : Comparison} (k : Fault) : compare op v w ≠ .error (.fault k) := by
  cases v with
  | scalar a => cases w <;> simp [compare]
  | boolean a =>
    cases w with
    | boolean b =>
      rw [compare]
      split <;> simp
    | _ => simp [compare]
  | _ => simp [compare]

theorem binary_fault_iff {op : BinaryOp} :
    (∃ k, binary op v w = .error (.fault k)) ↔ op = .arithmetic .pow ∧ v.PowerBreaks w := by
  cases op with
  | arithmetic op => simp only [binary, arithmetic_fault_iff, BinaryOp.arithmetic.injEq]
  | comparison op =>
    constructor
    · intro ⟨k, hk⟩
      exact absurd hk (compare_not_fault k)
    · rintro ⟨h, -⟩
      cases h

theorem unary_not_fault {op : UnaryOp} (k : Fault) : unary op v ≠ .error (.fault k) := by
  cases op with
  | neg => exact map_not_fault k
  | factorial => exact map_not_fault k
  | pos => cases v <;> simp [unary]

theorem absolute_not_fault (k : Fault) : v.absolute ≠ .error (.fault k) := by
  cases v <;> simp [absolute, map]

end Value

namespace Builtin

variable {f : Builtin} {v w : Value} {vs : List Value} {special : Option Value}

def rootExponent (index : Float) : Value := .scalar ⟨quotient 1 index, 0, .none, 0⟩

theorem rootIndex_not_fault (k : Fault) : rootIndex special ≠ .error (.fault k) := by
  cases special with
  | none => simp [rootIndex]
  | some w => cases w <;> simp [rootIndex, Value.quantity, Functor.map, Except.map]

theorem root_fault_iff : (∃ k, root v special = .error (.fault k)) ↔
    ∃ n, rootIndex special = .ok n ∧ v.PowerBreaks (rootExponent n) := by
  rw [root]
  cases hn : rootIndex special with
  | error e =>
    constructor
    · intro ⟨k, hk⟩
      cases hk
      exact absurd hn (rootIndex_not_fault k)
    · rintro ⟨n, h, -⟩
      cases h
  | ok n =>
    simp only [Except.ok.injEq, exists_eq_left']
    exact Value.arithmetic_fault_iff.trans (and_iff_right rfl)

theorem logarithm_not_fault (k : Fault) : logarithm v special ≠ .error (.fault k) := by
  cases special with
  | none => exact Value.map_not_fault k
  | some w =>
    cases w with
    | scalar q => exact Value.map_not_fault k
    | list qs => exact Value.map_not_fault k
    | _ =>
      intro h
      cases h

theorem rounded_not_fault (k : Fault) : rounded v w ≠ .error (.fault k) := by
  rw [rounded]
  cases hq : w.quantity "Decimal places" with
  | ok q => exact Value.map_not_fault k
  | error e =>
    intro h
    cases h
    exact absurd hq (Value.quantity_not_fault k)

theorem applyTwo_not_fault (k : Fault) : applyTwo f v w ≠ .error (.fault k) := by
  have hreals {g : Float → Float → Float} : Value.broadcast (ofReals g) f.name v w ≠
      .error (.fault k) := by
    intro h
    obtain ⟨p, -, k', hk'⟩ := Value.broadcast_fault_iff.mp ⟨k, h⟩
    cases hk'
  cases f with
  | round => exact rounded_not_fault k
  | choose => exact hreals
  | _ => exact hreals

theorem applyOne_fault_iff : (∃ k, applyOne f v special = .error (.fault k)) ↔
    f = .sqrt ∧ ∃ n, rootIndex special = .ok n ∧ v.PowerBreaks (rootExponent n) := by
  by_cases hf : f = .sqrt
  · subst hf
    rw [← root_fault_iff, and_iff_right rfl]
    exact Iff.rfl
  · constructor
    · intro ⟨k, hk⟩
      cases f with
      | sqrt => exact absurd rfl hf
      | abs => exact absurd hk (Value.absolute_not_fault k)
      | log | round | choose | permute => exact absurd hk (logarithm_not_fault k)
      | _ => exact absurd hk (Value.map_not_fault k)
    · exact fun h => absurd h.1 hf

/-- A built-in function breaks down only if it is a root. -/
theorem apply_fault_iff : (∃ k, f.apply vs special = .error (.fault k)) ↔
    f = .sqrt ∧ ∃ v n, vs = [v] ∧ rootIndex special = .ok n ∧ v.PowerBreaks (rootExponent n) := by
  constructor
  · intro ⟨k, hk⟩
    unfold apply at hk
    split at hk
    · next v hv =>
      obtain ⟨hf, n, hn, hbreaks⟩ := applyOne_fault_iff.mp ⟨k, hk⟩
      exact ⟨hf, v, n, rfl, hn, hbreaks⟩
    · exact absurd hk (applyTwo_not_fault k)
    · cases hk
  · rintro ⟨rfl, v, n, rfl, hn, hbreaks⟩
    exact applyOne_fault_iff.mpr ⟨rfl, n, hn, hbreaks⟩

end Builtin

end UnitSheet
