import UnitSheet.Builtin.Apply

namespace UnitSheet

@[simp]
theorem combineFigures_zero (m : Nat) : combineFigures m 0 = m := by
  cases m <;> rfl

/-- The least number of two lists, from their least numbers. -/
theorem min?_append {ms ns : List Nat} {m n : Nat} (hm : ms.min? = some m) (hn : ns.min? = some n) :
    (ms ++ ns).min? = some (min m n) := by
  obtain ⟨hmem, hle⟩ := List.min?_eq_some_iff.mp hm
  obtain ⟨hmem', hle'⟩ := List.min?_eq_some_iff.mp hn
  refine List.min?_eq_some_iff.mpr ⟨?_, fun k hk => ?_⟩
  · rcases Nat.le_total m n with h | h
    · rw [Nat.min_eq_left h]
      exact List.mem_append_left _ hmem
    · rw [Nat.min_eq_right h]
      exact List.mem_append_right _ hmem'
  · rcases List.mem_append.mp hk with hk | hk
    · exact Nat.le_trans (Nat.min_le_left m n) (hle k hk)
    · exact Nat.le_trans (Nat.min_le_right m n) (hle' k hk)

def Arithmetic.dimension : Arithmetic → Dimension → Dimension → Dimension
  | add, d, d' | sub, d, d' => if d = d' then d else .none
  | mul, d, d' => d * d'
  | div, d, d' => d / d'
  | pow, _, _ => .none

def UnaryOp.dimension : UnaryOp → Dimension → Dimension
  | neg, d | pos, d => d
  | factorial, _ => .none

namespace Builtin

def keepsDimension : Builtin → Bool
  | abs | floor | ceil | round => true
  | _ => false

def dimension (f : Builtin) (d : Dimension) : Dimension := if f.keepsDimension then d else .none

end Builtin

namespace Quantity

variable {a b q : Quantity} {op : Arithmetic}

theorem mul_dimension (a b : Quantity) : (mul a b).dimension = a.dimension * b.dimension := by
  rw [mul]
  split <;> rfl

theorem mul_figures (a b : Quantity) : (mul a b).figures = combineFigures a.figures b.figures := by
  rw [mul]
  split <;> rfl

theorem div_dimension (a b : Quantity) : (div a b).dimension = a.dimension / b.dimension := by
  rw [div]
  split <;> rfl

theorem div_figures (a b : Quantity) : (div a b).figures = combineFigures a.figures b.figures := by
  rw [div]
  split <;> rfl

theorem absolute_dimension (q : Quantity) : q.absolute.dimension = q.dimension := by
  rw [absolute]
  split <;> rfl

theorem absolute_figures (q : Quantity) : q.absolute.figures = q.figures := by
  rw [absolute]
  split <;> rfl

theorem pow_ok (h : pow a b = .ok q) :
    powDimension a b = .ok q.dimension ∧ q.figures = combineFigures a.figures b.figures := by
  rw [pow] at h
  cases hd : powDimension a b with
  | error f =>
    rw [hd] at h
    cases h
  | ok d =>
    rw [hd] at h
    change (if (a.isComplex || b.isComplex) = true then _ else _) = Except.ok q at h
    split at h
    · cases hz : a.toComplex.pow b.toComplex with
      | error f =>
        rw [hz] at h
        cases h
      | ok z =>
        rw [hz] at h
        cases h
        exact ⟨rfl, rfl⟩
    · cases h
      exact ⟨rfl, rfl⟩

theorem arithmetic_dimension (hop : op ≠ .pow) (h : arithmetic op a b = .ok q) :
    q.dimension = op.dimension a.dimension b.dimension := by
  cases op with
  | add | sub =>
    cases h
    rfl
  | mul =>
    cases h
    exact mul_dimension a b
  | div =>
    cases h
    exact div_dimension a b
  | pow => exact absurd rfl hop

theorem arithmetic_figures (h : arithmetic op a b = .ok q) :
    q.figures = combineFigures a.figures b.figures := by
  cases op with
  | add | sub =>
    cases h
    rfl
  | mul =>
    cases h
    exact mul_figures a b
  | div =>
    cases h
    exact div_figures a b
  | pow => exact (pow_ok h).2

end Quantity

namespace Value

variable {a b q : Quantity} {u v : Value}

theorem shape_eq_scalar : v.shape = .scalar ↔ ∃ q, v = .scalar q := by
  cases v <;> simp [shape]

theorem broadcast_scalar {f : Quantity → Quantity → Except Fault Quantity} {symbol : String}
    (h : broadcast f symbol (scalar a) (scalar b) = .ok u) : ∃ q, f a b = .ok q ∧ u = scalar q := by
  rw [broadcast] at h
  cases hq : f a b with
  | error k =>
    rw [hq] at h
    cases h
  | ok q =>
    rw [hq] at h
    cases h
    exact ⟨q, rfl, rfl⟩

theorem arithmetic_scalar {op : Arithmetic} (h : arithmetic op (scalar a) (scalar b) = .ok u) :
    ∃ q, Quantity.arithmetic op a b = .ok q ∧ u = scalar q :=
  broadcast_scalar h

theorem unary_scalar {op : UnaryOp} (h : unary op (scalar a) = .ok u) :
    ∃ q, u = scalar q ∧ q.dimension = op.dimension a.dimension ∧ q.figures = a.figures := by
  cases op <;> cases h <;> exact ⟨_, rfl, rfl, rfl⟩

end Value

namespace Builtin

open Value

variable {f : Builtin} {g : Quantity → Quantity} {a b q : Quantity}
variable {u : Value} {vs : List Value} {special : Option Value}

theorem ofComplex_dimension (f : Float → Float) (g? : ComplexFloat → Option ComplexFloat)
    (q : Quantity) : (ofComplex f g? q).dimension = .none := by
  rw [ofComplex]
  split
  · split <;> rfl
  · rfl

theorem ofComplex_figures (f : Float → Float) (g? : ComplexFloat → Option ComplexFloat)
    (q : Quantity) : (ofComplex f g? q).figures = q.figures := by
  rw [ofComplex]
  split
  · split <;> rfl
  · rfl

theorem pointwise?_dimension (h : f.pointwise? = some g) (q : Quantity) :
    (g q).dimension = f.dimension q.dimension := by
  cases f with
  | ln | sin | cos | tan =>
    cases h
    exact ofComplex_dimension _ _ q
  | sec | csc | cot | arcsin | arccos | arctan | arcsec | arccsc | arccot | ceil | floor =>
    cases h
    rfl
  | _ => cases h

theorem pointwise?_figures (h : f.pointwise? = some g) (q : Quantity) :
    (g q).figures = q.figures := by
  cases f with
  | ln | sin | cos | tan =>
    cases h
    exact ofComplex_figures _ _ q
  | sec | csc | cot | arcsin | arccos | arctan | arcsec | arccsc | arccot | ceil | floor =>
    cases h
    rfl
  | _ => cases h

theorem logarithm_scalar (h : logarithm (scalar a) special = .ok u) :
    ∃ q, u = scalar q ∧ q.dimension = .none ∧ q.figures = a.figures := by
  cases special with
  | none =>
    cases h
    exact ⟨_, rfl, rfl, rfl⟩
  | some w =>
    cases w with
    | scalar | list =>
      cases h
      exact ⟨_, rfl, rfl, rfl⟩
    | _ => cases h

theorem rounded_scalar (h : rounded (scalar a) (scalar b) = .ok u) :
    ∃ q, u = scalar q ∧ q.dimension = a.dimension := by
  cases h
  exact ⟨_, rfl, rfl⟩

theorem apply_ok (h : f.apply vs special = .ok u) :
    (f.arity = 1 ∧ ∃ v, vs = [v] ∧ f.applyOne v special = .ok u) ∨
      (f.arity = 2 ∧ ∃ v w, vs = [v, w] ∧ f.applyTwo v w = .ok u) := by
  unfold apply at h
  split at h
  · next v hf => exact .inl ⟨hf, v, rfl, h⟩
  · next v w hf => exact .inr ⟨hf, v, w, rfl, h⟩
  · cases h

theorem applyOne_scalar (hf : f.arity = 1) (hroot : f ≠ .sqrt)
    (h : f.applyOne (scalar a) special = .ok u) :
    ∃ q, u = scalar q ∧ q.dimension = f.dimension a.dimension ∧ q.figures = a.figures := by
  rw [applyOne.eq_def] at h
  split at h
  · next g hg =>
    cases h
    exact ⟨g a, rfl, pointwise?_dimension hg a, pointwise?_figures hg a⟩
  · next hg =>
    cases f with
    | abs =>
      cases h
      exact ⟨_, rfl, Quantity.absolute_dimension a, Quantity.absolute_figures a⟩
    | fact =>
      cases h
      exact ⟨_, rfl, rfl, rfl⟩
    | log => exact logarithm_scalar h
    | sqrt => exact absurd rfl hroot
    | round | choose | permute => cases hf
    | _ => cases hg

theorem ofReals_scalar {g : Float → Float → Float} (symbol : String)
    (h : broadcast (ofReals g) symbol (scalar a) (scalar b) = .ok u) :
    ∃ q, u = scalar q ∧ q.dimension = .none := by
  obtain ⟨q, hq, rfl⟩ := broadcast_scalar h
  cases hq
  exact ⟨_, rfl, rfl⟩

theorem applyTwo_scalar (hf : f.arity = 2) (h : f.applyTwo (scalar a) (scalar b) = .ok u) :
    ∃ q, u = scalar q ∧ q.dimension = f.dimension a.dimension := by
  cases f with
  | round => exact rounded_scalar h
  | choose => exact ofReals_scalar choose.name h
  | permute => exact ofReals_scalar permute.name h
  | _ => cases hf

theorem root_figures (h : root (scalar a) none = .ok u) :
    ∃ q, u = scalar q ∧ q.figures = a.figures := by
  obtain ⟨q, hq, rfl⟩ := arithmetic_scalar h
  exact ⟨q, rfl, (Quantity.pow_ok hq).2.trans (combineFigures_zero _)⟩

theorem apply_dimension (hroot : f ≠ .sqrt) (hvs : ∀ v ∈ vs, ∃ q, v = scalar q)
    (h : f.apply vs special = .ok u) :
    ∃ a rest q, vs = scalar a :: rest ∧ u = scalar q ∧ q.dimension = f.dimension a.dimension := by
  rcases apply_ok h with ⟨hf, v, rfl, hone⟩ | ⟨hf, v, w, rfl, htwo⟩
  · obtain ⟨a, rfl⟩ := hvs v (by simp)
    obtain ⟨q, rfl, hq, -⟩ := applyOne_scalar hf hroot hone
    exact ⟨a, [], q, rfl, rfl, hq⟩
  · obtain ⟨a, rfl⟩ := hvs v (by simp)
    obtain ⟨b, rfl⟩ := hvs w (by simp)
    obtain ⟨q, rfl, hq⟩ := applyTwo_scalar hf htwo
    exact ⟨a, [scalar b], q, rfl, rfl, hq⟩

theorem apply_figures (hf : f.arity = 1) (h : f.apply [scalar a] none = .ok u) :
    ∃ q, u = scalar q ∧ q.figures = a.figures := by
  rcases apply_ok h with ⟨-, v, hv, h⟩ | ⟨hf', -⟩
  · cases hv
    by_cases hroot : f = .sqrt
    · subst hroot
      exact root_figures h
    · obtain ⟨q, hq, -, hfigures⟩ := applyOne_scalar hf hroot h
      exact ⟨q, hq, hfigures⟩
  · rw [hf] at hf'
    cases hf'

end Builtin

end UnitSheet
