import UnitSheet.Builtin.Apply

namespace UnitSheet

def EvalError.IsRefusal : EvalError → Prop
  | nestedTooDeep _ | unknownName _ | assignToConstant _ | unknownComparison _ | conversionUnit _ =>
    False
  | _ => True

def Stop.IsRefusal : Stop → Prop
  | fault _ => True
  | failure (.eval e) => e.IsRefusal
  | failure _ => False

variable {v w : Value} {special : Option Value} {e : Stop}

theorem isRefusal_of_orFault {α : Type} {r : Except Fault α} (h : orFault r = .error e) :
    e.IsRefusal := by
  cases r with
  | ok a => cases h
  | error k =>
    cases h
    trivial

theorem isRefusal_of_bind {α β : Type} {r : Except Stop α} {g : α → Except Stop β}
    (hr : ∀ e, r = .error e → e.IsRefusal) (hg : ∀ a e, g a = .error e → e.IsRefusal)
    (h : r >>= g = .error e) : e.IsRefusal := by
  cases r with
  | ok a => exact hg a e h
  | error k =>
    cases h
    exact hr _ rfl

theorem isRefusal_of_result {α β : Type} {r : Except Stop α} {g : α → β}
    (hr : ∀ e, r = .error e → e.IsRefusal) (h : g <$> r = .error e) : e.IsRefusal := by
  cases r with
  | ok a => cases h
  | error k =>
    cases h
    exact hr _ rfl

namespace Value

theorem isRefusal_of_broadcast {f : Quantity → Quantity → Except Fault Quantity} {symbol : String}
    (h : broadcast f symbol v w = .error e) : e.IsRefusal := by
  rw [broadcast.eq_def] at h
  split at h
  · exact isRefusal_of_orFault h
  · exact isRefusal_of_orFault h
  · exact isRefusal_of_orFault h
  · exact isRefusal_of_orFault h
  · cases h
    trivial

theorem isRefusal_of_map {f : Quantity → Quantity} {operation : String}
    (h : map f operation v = .error e) : e.IsRefusal := by
  rw [map.eq_def] at h
  split at h
  · cases h
  · cases h
  · cases h
    trivial

theorem isRefusal_of_quantity {role : String} (h : v.quantity role = .error e) : e.IsRefusal := by
  rw [quantity.eq_def] at h
  split at h
  · cases h
  · cases h
  · cases h
    trivial

theorem isRefusal_of_compare {op : Comparison} (h : compare op v w = .error e) : e.IsRefusal := by
  rw [compare.eq_def] at h
  split at h
  · cases h
  · split at h
    · cases h
    · cases h
      trivial
  · cases h
    trivial

theorem isRefusal_of_binary {op : BinaryOp} (h : binary op v w = .error e) : e.IsRefusal := by
  cases op with
  | arithmetic op => exact isRefusal_of_broadcast h
  | comparison op => exact isRefusal_of_compare h

theorem isRefusal_of_unary {op : UnaryOp} (h : unary op v = .error e) : e.IsRefusal := by
  rw [unary.eq_def] at h
  split at h
  · exact isRefusal_of_map h
  · exact isRefusal_of_map h
  · cases h
  · cases h
  · cases h
    trivial

theorem isRefusal_of_absolute (h : v.absolute = .error e) : e.IsRefusal := by
  rw [absolute.eq_def] at h
  split at h
  · cases h
  · exact isRefusal_of_map h

end Value

namespace Builtin

open Value

variable {f : Builtin}

theorem isRefusal_of_rootIndex (h : rootIndex special = .error e) : e.IsRefusal := by
  cases special with
  | none => cases h
  | some w => exact isRefusal_of_result (fun _ => isRefusal_of_quantity) h

theorem isRefusal_of_root (h : root v special = .error e) : e.IsRefusal :=
  isRefusal_of_bind (fun _ => isRefusal_of_rootIndex) (fun _ _ => isRefusal_of_broadcast) h

theorem isRefusal_of_logarithm (h : logarithm v special = .error e) : e.IsRefusal := by
  cases special with
  | none => exact isRefusal_of_map h
  | some w =>
    refine isRefusal_of_bind (fun e he => ?_) (fun _ _ => isRefusal_of_map) h
    exact isRefusal_of_result (fun _ => isRefusal_of_quantity) he

theorem isRefusal_of_rounded (h : rounded v w = .error e) : e.IsRefusal :=
  isRefusal_of_bind (fun _ => isRefusal_of_quantity) (fun _ _ => isRefusal_of_map) h

theorem isRefusal_of_applyOne (h : applyOne f v special = .error e) : e.IsRefusal := by
  rw [applyOne.eq_def] at h
  split at h
  · exact isRefusal_of_map h
  · split at h
    · exact isRefusal_of_absolute h
    · exact isRefusal_of_map h
    · exact isRefusal_of_root h
    · exact isRefusal_of_logarithm h

theorem isRefusal_of_applyTwo (h : applyTwo f v w = .error e) : e.IsRefusal := by
  rw [applyTwo.eq_def] at h
  split at h
  · exact isRefusal_of_rounded h
  · exact isRefusal_of_broadcast h
  · exact isRefusal_of_broadcast h

theorem isRefusal_of_apply {args : List Value} (h : f.apply args special = .error e) :
    e.IsRefusal := by
  rw [apply.eq_def] at h
  dsimp only at h
  split at h
  · exact isRefusal_of_applyOne h
  · exact isRefusal_of_applyTwo h
  · cases h
    trivial

end Builtin

end UnitSheet
