import UnitSheet.Builtin.Apply

namespace UnitSheet

variable {u v w : Value} {special : Option Value}

namespace Value

def IsData (v : Value) : Prop := v.shape ≠ .function

theorem scalar_isData (q : Quantity) : (scalar q).IsData := nofun

theorem list_isData (qs : List Quantity) : (list qs).IsData := nofun

theorem boolean_isData (b : Bool) : (boolean b).IsData := nofun

theorem isData_of_orFault {α : Type} {g : α → Value} {r : Except Fault α} (hg : ∀ a, (g a).IsData)
    (h : orFault (g <$> r) = .ok u) : u.IsData := by
  cases r with
  | ok a =>
    cases h
    exact hg a
  | error f => cases h

theorem isData_of_broadcast {f : Quantity → Quantity → Except Fault Quantity} {symbol : String}
    (h : broadcast f symbol v w = .ok u) : u.IsData := by
  cases v with
  | scalar a =>
    cases w with
    | scalar b => exact isData_of_orFault scalar_isData h
    | list bs => exact isData_of_orFault list_isData h
    | _ => cases h
  | list as =>
    cases w with
    | scalar b => exact isData_of_orFault list_isData h
    | list bs => exact isData_of_orFault list_isData h
    | _ => cases h
  | _ => cases h

theorem isData_of_map {f : Quantity → Quantity} {operation : String}
    (h : map f operation v = .ok u) : u.IsData := by
  cases v with
  | scalar q =>
    cases h
    exact scalar_isData _
  | list qs =>
    cases h
    exact list_isData _
  | _ => cases h

theorem isData_of_compare {op : Comparison} (h : compare op v w = .ok u) : u.IsData := by
  cases v with
  | scalar a =>
    cases w with
    | scalar b =>
      cases h
      exact boolean_isData _
    | _ => cases h
  | boolean a =>
    cases w with
    | boolean b =>
      rw [compare] at h
      split at h
      · cases h
        exact boolean_isData _
      · cases h
    | _ => cases h
  | _ => cases h

theorem isData_of_absolute (h : absolute v = .ok u) : u.IsData := by
  cases v with
  | boolean b =>
    cases h
    exact scalar_isData _
  | scalar q =>
    cases h
    exact scalar_isData _
  | list qs =>
    cases h
    exact list_isData _
  | function f params body => cases h

theorem isData_of_binary {op : BinaryOp} (h : binary op v w = .ok u) : u.IsData := by
  cases op with
  | arithmetic op => exact isData_of_broadcast h
  | comparison op => exact isData_of_compare h

theorem isData_of_unary {op : UnaryOp} (h : unary op v = .ok u) : u.IsData := by
  cases op with
  | neg => exact isData_of_map h
  | factorial => exact isData_of_map h
  | pos =>
    cases v with
    | scalar q =>
      cases h
      exact scalar_isData _
    | list qs =>
      cases h
      exact list_isData _
    | _ => cases h

end Value

namespace Builtin

open Value

theorem isData_of_bind {α : Type} {r : Except Stop α} {g : α → Except Stop Value}
    (hg : ∀ a u, g a = .ok u → u.IsData) (h : r >>= g = .ok u) : u.IsData := by
  cases r with
  | ok a => exact hg a u h
  | error e => cases h

theorem isData_of_root (h : root v special = .ok u) : u.IsData := by
  cases special with
  | none => exact isData_of_broadcast h
  | some w =>
    rw [root.eq_def] at h
    refine isData_of_bind (fun _ _ => isData_of_broadcast) h

theorem isData_of_logarithm (h : logarithm v special = .ok u) : u.IsData := by
  cases special with
  | none => exact isData_of_map h
  | some w =>
    rw [logarithm.eq_def] at h
    exact isData_of_bind (fun _ _ => isData_of_map) h

theorem isData_of_rounded (h : rounded v w = .ok u) : u.IsData := by
  rw [rounded] at h
  exact isData_of_bind (fun _ _ => isData_of_map) h

theorem isData_of_applyOne {f : Builtin} (h : applyOne f v special = .ok u) : u.IsData := by
  rw [applyOne.eq_def] at h
  split at h
  · exact isData_of_map h
  · split at h
    · exact isData_of_absolute h
    · exact isData_of_map h
    · exact isData_of_root h
    · exact isData_of_logarithm h

theorem isData_of_applyTwo {f : Builtin} (h : applyTwo f v w = .ok u) : u.IsData := by
  rw [applyTwo.eq_def] at h
  split at h
  · exact isData_of_rounded h
  · exact isData_of_broadcast h
  · exact isData_of_broadcast h

theorem isData_of_apply {f : Builtin} {args : List Value} (h : f.apply args special = .ok u) :
    u.IsData := by
  rw [apply.eq_def] at h
  dsimp only at h
  split at h
  · exact isData_of_applyOne h
  · exact isData_of_applyTwo h
  · cases h

end Builtin

end UnitSheet
