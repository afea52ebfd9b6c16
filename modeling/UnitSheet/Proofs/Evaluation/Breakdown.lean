import UnitSheet.Proofs.Evaluation.Stopping
import UnitSheet.Proofs.Value.Power

namespace UnitSheet.Frame

open UnitSheet.Expr

/-- An evaluation raises a value to a power when its operands have got their values; a root is the
power by the reciprocal of its index. -/
inductive Raises : Frame → Value → Value → Prop
  | power {n s l r b v b' w b''} (hl : evalWithin n s l b = (.ok v, b'))
      (hr : evalWithin n s r b' = (.ok w, b'')) :
      Raises ⟨n + 1, s, .binary (.arithmetic .pow) l r, b⟩ v w
  | root {n s args special b v b' w b'' i} (ha : args.mapM (evalWithin n s) b = (.ok [v], b'))
      (hs : special.mapM (evalWithin n s) b' = (.ok w, b'')) (hi : Builtin.rootIndex w = .ok i) :
      Raises ⟨n + 1, s, .builtin .sqrt args special, b⟩ v (Builtin.rootExponent i)

variable {f : Frame}

theorem stops_fault_iff :
    (∃ k b, Stops f (.fault k) b) ↔ ∃ v w, Raises f v w ∧ v.PowerBreaks w := by
  constructor
  · intro ⟨k, b, h⟩
    cases h with
    | binary hl hr he =>
      obtain ⟨rfl, hbreaks⟩ := Value.binary_fault_iff.mp ⟨k, he⟩
      exact ⟨_, _, .power hl hr, hbreaks⟩
    | unary ha he => exact absurd he (Value.unary_not_fault k)
    | builtin ha hs he =>
      obtain ⟨rfl, v, i, rfl, hi, hbreaks⟩ := Builtin.apply_fault_iff.mp ⟨k, he⟩
      exact ⟨_, _, .root ha hs hi, hbreaks⟩
    | factor hx hv ha he =>
      obtain ⟨h, -⟩ := Value.arithmetic_fault_iff.mp ⟨k, he⟩
      cases h
  · intro ⟨v, w, hraises, hbreaks⟩
    cases hraises with
    | power hl hr =>
      obtain ⟨k, he⟩ := Value.binary_fault_iff.mpr ⟨rfl, hbreaks⟩
      exact ⟨k, _, .binary hl hr he⟩
    | root ha hs hi =>
      obtain ⟨k, he⟩ := Builtin.apply_fault_iff.mpr ⟨rfl, v, _, rfl, hi, hbreaks⟩
      exact ⟨k, _, .builtin ha hs he⟩

/-- An evaluation breaks down exactly if it comes to a power that does. -/
theorem run_fault_iff : (∃ k, f.run.1 = .error (.fault k)) ↔
    ∃ g v w, Reaches f g ∧ Raises g v w ∧ v.PowerBreaks w := by
  constructor
  · intro ⟨k, hk⟩
    obtain ⟨g, hg, hstop⟩ := run_eq_error_iff.mp (Prod.ext hk rfl)
    obtain ⟨v, w, hraises, hbreaks⟩ := stops_fault_iff.mp ⟨k, _, hstop⟩
    exact ⟨g, v, w, hg, hraises, hbreaks⟩
  · intro ⟨g, v, w, hg, hraises, hbreaks⟩
    obtain ⟨k, b, hstop⟩ := stops_fault_iff.mpr ⟨v, w, hraises, hbreaks⟩
    exact ⟨k, congrArg Prod.fst (run_eq_error_iff.mpr ⟨g, hg, hstop⟩)⟩

end UnitSheet.Frame
