import UnitSheet.Proofs.Evaluation.Induction
import UnitSheet.Proofs.Value.Scalar

namespace UnitSheet

open UnitSheet.Expr UnitSheet.Computation

/-- The least of the counts that are not zero, and zero if all are. -/
def leastFigures (counts : List Nat) : Nat := (counts.filter (· ≠ 0)).min?.getD 0

@[simp]
theorem leastFigures_singleton (m : Nat) : leastFigures [m] = m := by
  by_cases hm : m = 0 <;> simp [leastFigures, hm]

theorem leastFigures_append (ms ns : List Nat) :
    leastFigures (ms ++ ns) = combineFigures (leastFigures ms) (leastFigures ns) := by
  have hne {ls : List Nat} {m : Nat} (h : (ls.filter (· ≠ 0)).min? = some m) : m ≠ 0 :=
    of_decide_eq_true (List.mem_filter.mp (List.min?_mem h)).2
  rw [leastFigures, leastFigures, leastFigures, List.filter_append]
  cases hm : (ms.filter (· ≠ 0)).min? with
  | none =>
    rw [List.min?_eq_none_iff.mp hm, List.nil_append]
    rfl
  | some m =>
    cases hn : (ns.filter (· ≠ 0)).min? with
    | none => rw [List.min?_eq_none_iff.mp hn, List.append_nil, hm, Option.getD_none,
      combineFigures_zero]
    | some n =>
      rw [min?_append hm hn, Option.getD_some, Option.getD_some, Option.getD_some, combineFigures,
        if_neg (hne hm), if_neg (hne hn)]

theorem leastFigures_congr {ms ns : List Nat} (h : ∀ m, m ≠ 0 → (m ∈ ms ↔ m ∈ ns)) :
    leastFigures ms = leastFigures ns := by
  have hmem (m : Nat) : m ∈ ms.filter (· ≠ 0) ↔ m ∈ ns.filter (· ≠ 0) := by
    simp only [List.mem_filter, decide_eq_true_eq]
    exact and_congr_left (h m)
  have hmin : (ms.filter (· ≠ 0)).min? = (ns.filter (· ≠ 0)).min? :=
    Option.ext fun m => by simp only [List.min?_eq_some_iff, hmem]
  rw [leastFigures, leastFigures, hmin]

namespace Expr

/-- Leaves, operations that are no comparisons, and calls with one argument and nothing else. -/
def keepsFigures : Expr → Bool
  | literal _ | name _ | unary _ _ | binary (.arithmetic _) _ _ => true
  | builtin f _ none => f.arity = 1
  | _ => false

def leafFigures? (φ : String → Nat) : Expr → Option Nat
  | literal l => some l.figures
  | name x => some (φ x)
  | _ => none

def leafFigures (φ : String → Nat) (e : Expr) : List Nat := e.nodes.filterMap (leafFigures? φ)

theorem leafFigures_eq (φ : String → Nat) (e : Expr) :
    e.leafFigures φ = (e.leafFigures? φ).toList ++ e.children.flatMap (leafFigures φ) :=
  filterMap_nodes (leafFigures? φ) e

variable {φ : String → Nat}

@[simp]
theorem leafFigures_literal (l : Literal) :
    leafFigures φ (literal l) = [l.figures] := leafFigures_eq φ _

@[simp]
theorem leafFigures_name (x : String) : leafFigures φ (name x) = [φ x] := leafFigures_eq φ _

@[simp]
theorem leafFigures_binary (op : BinaryOp) (left right : Expr) :
    leafFigures φ (binary op left right) = leafFigures φ left ++ leafFigures φ right := by
  rw [leafFigures_eq]
  simp [leafFigures?, children]

@[simp]
theorem leafFigures_unary (op : UnaryOp) (operand : Expr) :
    leafFigures φ (unary op operand) = leafFigures φ operand := by
  rw [leafFigures_eq]
  simp [leafFigures?, children]

@[simp]
theorem leafFigures_builtin (f : Builtin) (operand : Expr) :
    leafFigures φ (builtin f [operand] none) = leafFigures φ operand := by
  rw [leafFigures_eq]
  simp [leafFigures?, children]

end Expr

def Scope.figures (s : Scope) (b : Bindings) (x : String) : Nat :=
  match s.get? b x with
  | some (.scalar q) => q.figures
  | _ => 0

namespace Expr

variable {s : Scope} {b b' : Bindings} {e : Expr} {v : Value}

theorem keepsFigures_isOperation (e : Expr) (h : e.keepsFigures = true) : e.isOperation = true := by
  cases e with
  | call | list | assign | define => cases h
  | _ => rfl

def WithLeastFigures (s : Scope) (b : Bindings) (e : Expr) (v : Value) : Prop :=
  ∃ q, v = .scalar q ∧ q.figures = leastFigures (e.leafFigures (s.figures b))

theorem withLeastFigures_of_yields (he : MadeOf keepsFigures [.scalar] s b e)
    (h : Yields (s.get? b) (WithLeastFigures s b) e v) : WithLeastFigures s b e v := by
  cases h with
  | @literal l =>
    refine ⟨_, rfl, ?_⟩
    rw [leafFigures_literal, leastFigures_singleton]
    rfl
  | @name x v hx =>
    obtain ⟨q, rfl⟩ := Value.shape_eq_scalar.mp (List.mem_singleton.mp (he.shape_mem hx))
    exact ⟨q, rfl, by rw [leafFigures_name, leastFigures_singleton, Scope.figures, hx]⟩
  | @binary op left right v w u hl hr h =>
    obtain ⟨a, rfl, ha⟩ := hl
    obtain ⟨a', rfl, ha'⟩ := hr
    cases op with
    | comparison op => cases he.self
    | arithmetic op =>
      obtain ⟨q, hq, rfl⟩ := Value.arithmetic_scalar h
      exact ⟨q, rfl, by rw [Quantity.arithmetic_figures hq, ha, ha', leafFigures_binary,
        leastFigures_append]⟩
  | @unary op operand v u hoperand h =>
    obtain ⟨a, rfl, ha⟩ := hoperand
    obtain ⟨q, rfl, -, hq⟩ := Value.unary_scalar h
    exact ⟨q, rfl, by rw [hq, ha, leafFigures_unary]⟩
  | @builtin f args special vs w u hargs hspecial h =>
    cases special with
    | some special => cases he.self
    | none =>
      cases hspecial
      have hf : f.arity = 1 := of_decide_eq_true he.self
      rcases Builtin.apply_ok h with ⟨-, v, rfl, -⟩ | ⟨hf', -⟩
      · obtain ⟨c, rfl, hc⟩ : ∃ c, args = [c] ∧ WithLeastFigures s b c v := by
          cases hargs with
          | cons hc hrest =>
            cases hrest
            exact ⟨_, rfl, hc⟩
        obtain ⟨a, rfl, ha⟩ := hc
        obtain ⟨q, rfl, hq⟩ := Builtin.apply_figures hf h
        exact ⟨q, rfl, by rw [hq, ha, leafFigures_builtin]⟩
      · rw [hf] at hf'
        cases hf'

/-- The result is a quantity with the least count of figures of the leaves that are not exact. So
any two such expressions over the same counts come to the same count, whatever they do with the
leaves and whatever the numbers are. -/
theorem eval_figures (he : MadeOf keepsFigures [.scalar] s b e) (h : e.eval s b = (.ok v, b')) :
    ∃ q, v = .scalar q ∧ q.figures = leastFigures (e.leafFigures (s.figures b)) ∧
      ∀ e₂ s₂ b₂ v₂ c, MadeOf keepsFigures [.scalar] s₂ b₂ e₂ →
        (∀ m, m ≠ 0 → (m ∈ e₂.leafFigures (s₂.figures b₂) ↔ m ∈ e.leafFigures (s.figures b))) →
        e₂.eval s₂ b₂ = (.ok v₂, c) → ∃ q₂, v₂ = .scalar q₂ ∧ q₂.figures = q.figures := by
  obtain ⟨⟨q, rfl, hq⟩, -⟩ :=
    evalWithin_induction keepsFigures_isOperation (fun _ _ => withLeastFigures_of_yields) he h
  refine ⟨q, rfl, hq, fun e₂ s₂ b₂ v₂ c he₂ hleaves h₂ => ?_⟩
  obtain ⟨⟨q₂, rfl, hq₂⟩, -⟩ :=
    evalWithin_induction keepsFigures_isOperation (fun _ _ => withLeastFigures_of_yields) he₂ h₂
  exact ⟨q₂, rfl, hq₂.trans ((leastFigures_congr hleaves).trans hq.symm)⟩

def powerLess : Expr :=
  .binary (.arithmetic .sub)
    (.binary (.arithmetic .pow) (.name "x") (.literal { value := 2, dimension := { length := 1 } }))
    (.unary .factorial (.name "y"))

def overLogarithm : Expr :=
  .binary (.arithmetic .div) (.name "y") (.builtin .ln [.unary .neg (.name "x")] none)

def measurements (x y : ComplexFloat) : Scope where
  constants := .ofPairs [("x", .scalar ⟨x.re, x.im, .none, 2⟩),
    ("y", .scalar ⟨y.re, y.im, .none, 3⟩)]
  limit := 8

/-- The exact exponent does not count. The quotient has the figures of the difference, as it is over
the same counts. -/
theorem powerLess_figures :
    ∃ q q₂, powerLess.eval (measurements ⟨1.5, 0⟩ ⟨3.25, 0⟩) {} = (.ok (.scalar q), {}) ∧
    q.figures = 2 ∧ overLogarithm.eval (measurements ⟨0, 1⟩ ⟨infinity, 0⟩)
      {} = (.ok (.scalar q₂), {}) ∧ q₂.figures = q.figures := by
  have he : MadeOf keepsFigures [.scalar] (measurements ⟨1.5, 0⟩ ⟨3.25, 0⟩) {} powerLess :=
    ⟨by decide, by decide⟩
  have he₂ : MadeOf keepsFigures [.scalar] (measurements ⟨0, 1⟩ ⟨infinity, 0⟩) {} overLogarithm :=
    ⟨by decide, by decide⟩
  have hleaves (m : Nat) (hm : m ≠ 0) :
      m ∈ overLogarithm.leafFigures ((measurements ⟨0, 1⟩ ⟨infinity, 0⟩).figures {}) ↔
      m ∈ powerLess.leafFigures ((measurements ⟨1.5, 0⟩ ⟨3.25, 0⟩).figures {}) := by
    change m ∈ [3, 2] ↔ m ∈ [2, 0, 3]
    simp only [List.mem_cons, List.not_mem_nil, or_false, hm, false_or]
    exact or_comm
  obtain ⟨q, hq, hfigures, hsame⟩ := eval_figures he rfl
  obtain ⟨q₂, hq₂, hfigures₂⟩ := hsame _ _ _ _ _ he₂ hleaves rfl
  exact ⟨q, q₂, hq ▸ rfl, hfigures, hq₂ ▸ rfl, hfigures₂⟩

end Expr

end UnitSheet
