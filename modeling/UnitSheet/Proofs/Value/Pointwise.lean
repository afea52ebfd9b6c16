import UnitSheet.Proofs.Value.Power
import UnitSheet.Proofs.Value.Scalar

namespace UnitSheet.Value

/-- The element at a place; a quantity stands for itself at every place. -/
def entry (i : Nat) : Value → Option Quantity
  | scalar q => some q
  | list qs => qs[i]?
  | _ => none

/-- The value is a quantity if there are no lists, and otherwise a list as long as the shortest of
them. It has the given elements. -/
def IsPointwise (lengths : List Nat) (entry : Nat → Option Quantity) : Value → Prop
  | scalar q => lengths = [] ∧ ∀ i, entry i = some q
  | list qs => lengths.min? = some qs.length ∧ ∀ i < qs.length, entry i = qs[i]?
  | _ => False

/-- The element of a result of arithmetic; where a list takes part, only real parts do. -/
def combineEntries (op : Arithmetic) (withList : Bool) (a b : Quantity) : Option Quantity :=
  if withList then (Quantity.arithmetic op a.real b.real).toOption else
    (Quantity.arithmetic op a b).toOption

variable {v w u : Value} {f : Quantity → Quantity → Except Fault Quantity} {symbol : String}
variable {op : Arithmetic} {ls ms : List Nat} {at₁ at₂ : Nat → Option Quantity}

theorem orFault_list_ok {r : Except Fault (List Quantity)} (h : orFault (list <$> r) = .ok u) :
    ∃ qs, r = .ok qs ∧ u = list qs := by
  cases r with
  | error k => cases h
  | ok qs =>
    cases h
    exact ⟨qs, rfl, rfl⟩

/-- A broadcast with a list gives a list, with an element for each pair of quantities that it brings
together. -/
theorem broadcast_list (hlist : v.shape = .list ∨ w.shape = .list)
    (h : broadcast f symbol v w = .ok u) :
    ∃ qs, u = list qs ∧ List.Forall₂ (fun p q => f p.1 p.2 = .ok q) (pairs v w) qs := by
  cases v with
  | scalar a =>
    cases w with
    | scalar b => rcases hlist with hlist | hlist <;> cases hlist
    | list bs =>
      obtain ⟨qs, hqs, rfl⟩ := orFault_list_ok h
      exact ⟨qs, rfl, List.forall₂_map_left_iff.mpr (forall₂_of_mapM_ok hqs)⟩
    | _ => cases h
  | list as =>
    cases w with
    | scalar b =>
      obtain ⟨qs, hqs, rfl⟩ := orFault_list_ok h
      exact ⟨qs, rfl, List.forall₂_map_left_iff.mpr (forall₂_of_mapM_ok hqs)⟩
    | list bs =>
      obtain ⟨qs, hqs, rfl⟩ := orFault_list_ok h
      exact ⟨qs, rfl, List.forall₂_map_left_iff.mpr (forall₂_of_mapM_ok hqs)⟩
    | _ => cases h
  | _ => cases h

/-- The pairs reach as far as the shortest list, and bring together what stands at the same
place. -/
theorem IsPointwise.pairs (hv : v.IsPointwise ls at₁) (hw : w.IsPointwise ms at₂)
    (hlist : v.shape = .list ∨ w.shape = .list) : (ls ++ ms).min? = some (pairs v w).length ∧
      ∀ i p, (pairs v w)[i]? = some p → ∃ a b, at₁ i = some a ∧ at₂ i = some b ∧
        p = (a.real, b.real) := by
  cases v with
  | scalar a =>
    obtain ⟨rfl, ha⟩ := hv
    cases w with
    | scalar b => rcases hlist with hlist | hlist <;> cases hlist
    | list bs =>
      obtain ⟨hms, hb⟩ := hw
      refine ⟨by simpa [Value.pairs] using hms, fun i p hp => ?_⟩
      obtain ⟨b, hi, rfl⟩ := Option.map_eq_some_iff.mp ((List.getElem?_map ..).symm.trans hp)
      exact ⟨a, b, ha i, (hb i (List.getElem?_eq_some_iff.mp hi).1).trans hi, rfl⟩
    | _ => cases hw
  | list as =>
    obtain ⟨hls, ha⟩ := hv
    cases w with
    | scalar b =>
      obtain ⟨rfl, hb⟩ := hw
      refine ⟨by simpa [Value.pairs] using hls, fun i p hp => ?_⟩
      obtain ⟨a, hi, rfl⟩ := Option.map_eq_some_iff.mp ((List.getElem?_map ..).symm.trans hp)
      exact ⟨a, b, (ha i (List.getElem?_eq_some_iff.mp hi).1).trans hi, hb i, rfl⟩
    | list bs =>
      obtain ⟨hms, hb⟩ := hw
      constructor
      · rw [min?_append hls hms, Value.pairs, List.length_map, List.length_zip]
      · intro i p hp
        obtain ⟨⟨a, b⟩, hi, rfl⟩ := Option.map_eq_some_iff.mp ((List.getElem?_map ..).symm.trans hp)
        obtain ⟨hia, hib⟩ := List.getElem?_zip_eq_some.mp hi
        exact ⟨a, b, (ha i (List.getElem?_eq_some_iff.mp hia).1).trans hia,
          (hb i (List.getElem?_eq_some_iff.mp hib).1).trans hib, rfl⟩
    | _ => cases hw
  | _ => cases hv

theorem IsPointwise.negate (hv : v.IsPointwise ls at₁) (h : negate v = .ok u) :
    u.IsPointwise ls fun i => (at₁ i).map Quantity.negate := by
  cases v with
  | scalar a =>
    obtain ⟨rfl, ha⟩ := hv
    cases h
    exact ⟨rfl, fun i => congrArg (Option.map Quantity.negate) (ha i)⟩
  | list as =>
    obtain ⟨hls, ha⟩ := hv
    cases h
    refine ⟨by rw [hls, List.length_map], fun i hi => ?_⟩
    rw [List.length_map] at hi
    rw [List.getElem?_map, ← ha i hi]
  | _ => cases h

theorem IsPointwise.shape (hv : v.IsPointwise ls at₁) :
    v.shape = if ls = [] then .scalar else .list := by
  cases v with
  | scalar a => exact (if_pos hv.1).symm
  | list as =>
    refine (if_neg fun hls => ?_).symm
    have hminimum := hv.1
    rw [hls] at hminimum
    cases hminimum
  | _ => cases hv

theorem IsPointwise.arithmetic (hv : v.IsPointwise ls at₁) (hw : w.IsPointwise ms at₂)
    (h : arithmetic op v w = .ok u) : u.IsPointwise (ls ++ ms) fun i =>
      (at₁ i).bind fun a => (at₂ i).bind fun b => combineEntries op (ls ++ ms ≠ []) a b := by
  by_cases hls : ls ++ ms = []
  · obtain ⟨rfl, rfl⟩ := List.append_eq_nil_iff.mp hls
    obtain ⟨a, rfl⟩ := shape_eq_scalar.mp hv.shape
    obtain ⟨b, rfl⟩ := shape_eq_scalar.mp hw.shape
    obtain ⟨q, hq, rfl⟩ := arithmetic_scalar h
    refine ⟨rfl, fun i => ?_⟩
    simp [hv.2 i, hw.2 i, combineEntries, hq, Except.toOption]
  · have hlist : v.shape = .list ∨ w.shape = .list := by
      rw [hv.shape, hw.shape]
      by_cases hl : ls = []
      · exact .inr (if_neg fun hm => hls (by rw [hl, hm, List.append_nil]))
      · exact .inl (if_neg hl)
    obtain ⟨hminimum, hpairs⟩ := hv.pairs hw hlist
    obtain ⟨qs, rfl, hqs⟩ := broadcast_list hlist h
    refine ⟨hminimum.trans (congrArg some hqs.length_eq), fun i hi => ?_⟩
    have hi' : i < (Value.pairs v w).length := hqs.length_eq ▸ hi
    obtain ⟨a, b, ha, hb, hp⟩ := hpairs i _ (List.getElem?_eq_getElem hi')
    have hq : Quantity.arithmetic op a.real b.real = .ok qs[i] := by
      have hget := hqs.get hi' hi
      rw [List.get_eq_getElem, List.get_eq_getElem, hp] at hget
      exact hget
    simp [ha, hb, combineEntries, hls, hq, hi, Except.toOption]

end UnitSheet.Value
