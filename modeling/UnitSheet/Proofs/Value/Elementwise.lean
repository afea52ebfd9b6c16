import UnitSheet.Proofs.Unit.Root
import UnitSheet.Proofs.Value.Power

namespace UnitSheet

variable {α β ε : Type}

theorem exists_ok_iff {r : Except ε α} : (∃ a, r = .ok a) ↔ ¬ ∃ e, r = .error e := by
  cases r <;> simp

theorem mapM_ok_iff {f : α → Except ε β} {as : List α} :
    (∃ bs, as.mapM f = .ok bs) ↔ ∀ a ∈ as, ∃ b, f a = .ok b := by
  rw [exists_ok_iff, mapM_error_iff]
  simp only [exists_ok_iff, not_exists, not_and]

theorem orFault_mapM (f : α → Except Fault β) (as : List α) :
    orFault (as.mapM f) = as.mapM fun a => orFault (f a) := by
  induction as with
  | nil => rfl
  | cons a as ih =>
    rw [List.mapM_cons, List.mapM_cons, ← ih]
    cases f a with
    | error k => rfl
    | ok b => cases as.mapM f <;> rfl

theorem orFault_map (f : α → β) (r : Except Fault α) : orFault (f <$> r) = f <$> orFault r := by
  cases r <;> rfl

namespace Value

/-- An operation is done on a quantity by itself, and on a list by what it is on the parts of the
elements. -/
def ActsOn (part : Quantity → Quantity) (m : Value → Except Stop Value) : Prop :=
  ∃ f : Quantity → Except Stop Quantity, (∀ q, m (scalar q) = scalar <$> f q) ∧
    ∀ qs, m (list qs) = list <$> qs.mapM fun q => f (part q)

variable {part : Quantity → Quantity} {m : Value → Except Stop Value} {qs : List Quantity}
variable {v : Value}

theorem map_eq_ok_iff {f : β → Value} {r : Except Stop β} :
    f <$> r = .ok v ↔ ∃ b, r = .ok b ∧ f b = v := by
  cases r with
  | error s => simp
  | ok b => simp

theorem actsOn_map (f : Quantity → Quantity) (operation : String) :
    ActsOn id (map f operation) := by
  refine ⟨fun q => .ok (f q), fun q => rfl, fun qs => ?_⟩
  have hpure : qs.mapM (fun q => (Except.ok (f q) : Except Stop Quantity)) = .ok (qs.map f) :=
    List.mapM_pure
  exact (congrArg (list <$> ·) hpure).symm

theorem actsOn_arithmetic (op : Arithmetic) {b : Quantity} (hb : b.real = b) :
    ActsOn Quantity.real fun v => arithmetic op v (scalar b) := by
  refine ⟨fun q => orFault (Quantity.arithmetic op q b), fun q => orFault_map _ _, fun qs => ?_⟩
  change orFault (list <$> qs.mapM fun a => Quantity.arithmetic op a.real b.real) = _
  rw [hb, orFault_map, orFault_mapM]

namespace ActsOn

theorem congr {m' : Value → Except Stop Value} (h : ActsOn part m)
    (hscalar : ∀ q, m' (scalar q) = m (scalar q))
    (hlist : ∀ qs, m' (list qs) = m (list qs)) : ActsOn part m' := by
  obtain ⟨f, hf, hfs⟩ := h
  exact ⟨f, fun q => (hscalar q).trans (hf q), fun qs => (hlist qs).trans (hfs qs)⟩

variable (h : ActsOn part m)
include h

/-- A list has a result if and only if the part of each element has one. -/
theorem list_ok_iff : (∃ v, m (list qs) = .ok v) ↔ ∀ q ∈ qs, ∃ v, m (scalar (part q)) = .ok v := by
  obtain ⟨f, hscalar, hlist⟩ := h
  have hresult {γ : Type} {g : γ → Value} {r : Except Stop γ} : (∃ v, g <$> r = .ok v) ↔
      ∃ b, r = .ok b := by
    simp [map_eq_ok_iff]
  rw [hlist, hresult, mapM_ok_iff]
  simp only [hscalar, hresult]

theorem forall₂_of_list_ok (hv : m (list qs) = .ok v) :
    ∃ rs, v = list rs ∧ List.Forall₂ (fun q r => m (scalar (part q)) = .ok (scalar r)) qs rs := by
  obtain ⟨f, hscalar, hlist⟩ := h
  rw [hlist] at hv
  obtain ⟨rs, hrs, rfl⟩ := map_eq_ok_iff.mp hv
  refine ⟨rs, rfl, (forall₂_of_mapM_ok hrs).imp fun q r hr => ?_⟩
  rw [hscalar, hr]
  rfl

end ActsOn

end Value

namespace Builtin

open Value

/-- The part of a list's element that a function sees: for a root, the real one. -/
def element : Builtin → Quantity → Quantity
  | sqrt, q => q.real
  | _, q => q

/-- What may stand beside the first argument: nothing, a quantity as special operand, or the decimal
places. -/
inductive Beside : Builtin → List Value → Option Value → Prop
  | nothing {f : Builtin} (hf : f.arity = 1) : Beside f [] none
  | special {f : Builtin} (hf : f.arity = 1) (n : Quantity) : Beside f [] (some (scalar n))
  | places (p : Quantity) (special : Option Value) : Beside round [scalar p] special

variable {f : Builtin} {rest : List Value} {special : Option Value}

theorem apply_one (hf : f.arity = 1) (v : Value) : f.apply [v] special = f.applyOne v special := by
  rw [apply]
  exact hf

theorem actsOn_root (n : Option Quantity) : ActsOn Quantity.real (root · (n.map scalar)) := by
  have hreal : ((0 : Float) == 0) = true := by decide
  cases n <;> exact actsOn_arithmetic .pow (if_pos hreal)

theorem actsOn_logarithm (n : Option Quantity) : ActsOn id (logarithm · (n.map scalar)) := by
  cases n <;> exact actsOn_map _ "log"

theorem actsOn_applyOne (hf : f.arity = 1) (n : Option Quantity) :
    ActsOn f.element fun v => f.applyOne v (n.map scalar) := by
  cases f with
  | sqrt => exact actsOn_root n
  | log => exact actsOn_logarithm n
  | abs => exact (actsOn_map Quantity.absolute "abs").congr (fun _ => rfl) fun _ => rfl
  | fact => exact actsOn_map Quantity.factorial "factorial"
  | round | choose | permute => cases hf
  | _ => exact actsOn_map _ _

theorem Beside.actsOn (h : Beside f rest special) :
    ActsOn f.element fun v => f.apply (v :: rest) special := by
  cases h with
  | nothing hf =>
    exact (actsOn_applyOne hf none).congr (fun _ => apply_one hf _) fun _ => apply_one hf _
  | special hf n =>
    exact (actsOn_applyOne hf (some n)).congr (fun _ => apply_one hf _) fun _ => apply_one hf _
  | places p => exact actsOn_map _ "round"

theorem element_eq {q : Quantity} (h : f ≠ .sqrt ∨ (q.imaginary == 0) = true) :
    f.element q = q := by
  by_cases hf : f = .sqrt
  · subst hf
    exact if_pos (h.resolve_left fun hne => hne rfl)
  · rw [element]
    exact hf

theorem exists_sqrt (v : Float) : ∃ r, sqrt.apply [scalar ⟨v, 0, .none, 0⟩] none = .ok r := by
  have hroot : root (scalar ⟨v, 0, .none, 0⟩) (some (scalar ⟨2, 0, .none, 0⟩)) =
      .ok (scalar ⟨power v (quotient 1 2), 0, .none, 0⟩) := root_eq_ok (Dimension.scaled_none _)
  exact ⟨_, hroot⟩

/-- A function on a list succeeds exactly where it does on each element alone, and gives the list of
those results; a root does so with the real parts of the elements, which real elements are
themselves. -/
theorem apply_list_elementwise (h : Beside f rest special) (qs : List Quantity) :
    ((∃ v, f.apply (list qs :: rest) special = .ok v) ↔
      ∀ q ∈ qs, ∃ v, f.apply (scalar (f.element q) :: rest) special = .ok v) ∧
    (∀ v, f.apply (list qs :: rest) special = .ok v → ∃ rs, v = list rs ∧ List.Forall₂
      (fun q r => f.apply (scalar (f.element q) :: rest) special = .ok (scalar r)) qs rs) ∧
    ∀ q, f ≠ .sqrt ∨ (q.imaginary == 0) = true → f.element q = q :=
  ⟨h.actsOn.list_ok_iff, fun _ hv => h.actsOn.forall₂_of_list_ok hv, fun _ hq => element_eq hq⟩

/-- Of the roots of two and of four in a list, the second is seen without its imaginary part. -/
theorem sqrt_list_two :
    ∃ rs, sqrt.apply [list [⟨2, 0, .none, 0⟩, ⟨4, 1, .none, 0⟩]] none = .ok (list rs) ∧
    rs.length = 2 := by
  have hparts := apply_list_elementwise (.nothing rfl : Beside sqrt [] none) [⟨2, 0, .none, 0⟩,
    ⟨4, 1, .none, 0⟩]
  have hroots : ∀ q ∈ ([⟨2, 0, .none, 0⟩, ⟨4, 1, .none, 0⟩] : List Quantity),
      ∃ v, sqrt.apply [scalar (element sqrt q)] none = .ok v := by
    simp only [List.forall_mem_cons, List.not_mem_nil, false_implies, implies_true, and_true]
    exact ⟨exists_sqrt 2, exists_sqrt 4⟩
  obtain ⟨v, hv⟩ := hparts.1.mpr hroots
  obtain ⟨rs, rfl, hrs⟩ := hparts.2.1 v hv
  exact ⟨rs, hv, hrs.length_eq.symm⟩

def corner : Quantity :=
  ⟨Float.ofBits 0x7fe8000000000000, Float.ofBits 0x7fe8000000000000, .none, 0⟩

theorem corner_real : corner.real = ⟨Float.ofBits 0x7fe8000000000000, 0, .none, 0⟩ :=
  if_neg (by decide)

theorem corner_remote : corner.toComplex.Remote := by
  refine ⟨?_, ?_, ?_⟩ <;> decide +kernel

/-- The root of a list does not break down at an element whose own root does, since it sees a real
number there. -/
theorem corner_root : (∃ v, sqrt.apply [list [corner]] none = .ok v) ∧
    ¬ ∃ v, sqrt.apply [scalar corner] none = .ok v := by
  constructor
  · apply (Beside.nothing rfl).actsOn.list_ok_iff.mpr
    intro q hq
    obtain rfl := List.mem_singleton.mp hq
    rw [element, corner_real]
    exact exists_sqrt _
  · have hcomplex : corner.isComplex = true := by decide
    have hzero : corner.toComplex.isZero = false := by decide
    have hbreaks : corner.PowerBreaks ⟨quotient 1 2, 0, .none, 0⟩ :=
      .inr ⟨by rw [hcomplex, Bool.true_or], hzero, .inl corner_remote⟩
    have hfault : ∃ k, sqrt.apply [scalar corner] none = .error (.fault k) :=
      apply_fault_iff.mpr ⟨rfl, scalar corner, 2, rfl, rfl, _, List.mem_singleton.mpr rfl, hbreaks⟩
    obtain ⟨k, hk⟩ := hfault
    rw [hk]
    nofun

end Builtin

end UnitSheet
