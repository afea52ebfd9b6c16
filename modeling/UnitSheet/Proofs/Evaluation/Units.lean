import Mathlib.Data.List.Forall2
import UnitSheet.Proofs.Evaluation.Induction
import UnitSheet.Proofs.Value.Scalar

namespace UnitSheet

open UnitSheet.Expr UnitSheet.Computation

namespace Expr

def infersUnit : Expr → Bool
  | literal _ | name _ | unary _ _ => true
  | binary (.arithmetic op) _ _ => op ≠ .pow
  | builtin f _ _ => f ≠ .sqrt
  | _ => false

mutual

/-- The unit of an expression, from the units `δ` of its names. -/
def dimension (δ : String → Dimension) : Expr → Dimension
  | literal l => l.dimension
  | name x => δ x
  | binary (.arithmetic op) left right => op.dimension (left.dimension δ) (right.dimension δ)
  | unary op operand => op.dimension (operand.dimension δ)
  | builtin f args _ => f.dimension (firstDimension δ args)
  | _ => .none

def firstDimension (δ : String → Dimension) : List Expr → Dimension
  | [] => .none
  | e :: _ => e.dimension δ

end

mutual

/-- The expression with the units of its literals and without their numbers. -/
def bare : Expr → Expr
  | literal l => literal { value := 0, dimension := l.dimension }
  | name x => name x
  | binary op left right => binary op left.bare right.bare
  | unary op operand => unary op operand.bare
  | builtin f args none => builtin f (bareAll args) none
  | builtin f args (some special) => builtin f (bareAll args) (some special.bare)
  | call f args => call f (bareAll args)
  | list items => list (bareAll items)
  | assign x value => assign x value.bare
  | define f params body => define f params body.bare

def bareAll : List Expr → List Expr
  | [] => []
  | e :: es => e.bare :: bareAll es

end

variable {δ δ' : String → Dimension} {e e' c : Expr}

theorem dimension_bare (δ : String → Dimension) (e : Expr) :
    e.bare.dimension δ = e.dimension δ := by
  induction e using induction_children with
  | h e ih =>
    cases e with
    | literal | name => rfl
    | binary op left right =>
      cases op with
      | arithmetic op =>
        rw [bare, dimension, dimension, ih left (by simp [children]), ih right (by simp [children])]
      | comparison op => rfl
    | unary op operand => rw [bare, dimension, dimension, ih operand (by simp [children])]
    | builtin f args special =>
      have hargs : firstDimension δ (bareAll args) = firstDimension δ args := by
        cases args with
        | nil => rfl
        | cons c cs => exact ih c (by simp [children])
      cases special <;> rw [bare, dimension, dimension, hargs]
    | call | list | assign | define => rfl

theorem dimension_congr (h : ∀ x ∈ e.names, δ x = δ' x) : e.dimension δ = e.dimension δ' := by
  induction e using induction_children with
  | h e ih =>
    have hchild (c : Expr) (hc : c ∈ e.children) (hb : e.binders = []) :
        c.dimension δ = c.dimension δ' :=
      ih c hc fun x hx => h x (mem_names.mpr (.child hc (hb ▸ List.not_mem_nil) (mem_names.mp hx)))
    cases e with
    | name x => exact h x (mem_names.mpr (.head rfl))
    | binary op left right =>
      cases op with
      | arithmetic op =>
        rw [dimension, dimension, hchild left (by simp [children]) rfl,
          hchild right (by simp [children]) rfl]
      | comparison op => rfl
    | unary op operand => rw [dimension, dimension, hchild operand (by simp [children]) rfl]
    | builtin f args special =>
      cases args with
      | nil => rfl
      | cons c cs => exact congrArg f.dimension (hchild c (by simp [children]) rfl)
    | literal | call | list | assign | define => rfl

end Expr

def Scope.dimension (s : Scope) (b : Bindings) (x : String) : Dimension :=
  match s.get? b x with
  | some (.scalar q) => q.dimension
  | _ => .none

namespace Expr

variable {s : Scope} {b b' : Bindings} {e : Expr} {v : Value}

theorem infersUnit_isOperation (e : Expr) (h : e.infersUnit = true) : e.isOperation = true := by
  cases e with
  | call | list | assign | define => cases h
  | _ => rfl

def InUnit (s : Scope) (b : Bindings) (e : Expr) (v : Value) : Prop :=
  ∃ q, v = .scalar q ∧ q.dimension = e.dimension (s.dimension b)

theorem inUnit_of_yields (he : MadeOf infersUnit [.scalar] s b e)
    (h : Yields (s.get? b) (InUnit s b) e v) : InUnit s b e v := by
  cases h with
  | literal => exact ⟨_, rfl, rfl⟩
  | name hx =>
    obtain ⟨q, rfl⟩ := Value.shape_eq_scalar.mp (List.mem_singleton.mp (he.shape_mem hx))
    exact ⟨q, rfl, by rw [dimension, Scope.dimension, hx]⟩
  | @binary op left right v w u hl hr h =>
    obtain ⟨a, rfl, ha⟩ := hl
    obtain ⟨a', rfl, ha'⟩ := hr
    cases op with
    | comparison op => cases he.self
    | arithmetic op =>
      have hop : op ≠ .pow := of_decide_eq_true he.self
      obtain ⟨q, hq, rfl⟩ := Value.arithmetic_scalar h
      exact ⟨q, rfl, by rw [Quantity.arithmetic_dimension hop hq, ha, ha', dimension]⟩
  | unary hoperand h =>
    obtain ⟨a, rfl, ha⟩ := hoperand
    obtain ⟨q, rfl, hq, -⟩ := Value.unary_scalar h
    exact ⟨q, rfl, by rw [hq, ha, dimension]⟩
  | @builtin f args special vs w u hargs hspecial h =>
    have hroot : f ≠ .sqrt := of_decide_eq_true he.self
    have hscalar (c : Expr) (v : Value) (hv : InUnit s b c v) : (∃ q, v = .scalar q) ∧ True := by
      obtain ⟨q, hq, -⟩ := hv
      exact ⟨⟨q, hq⟩, trivial⟩
    have hscalars : ∀ v ∈ vs, ∃ q, v = .scalar q :=
      ((List.forall₂_and_left vs args).mp (hargs.imp hscalar).flip).1
    obtain ⟨a, rest, q, rfl, rfl, hq⟩ := Builtin.apply_dimension hroot hscalars h
    cases hargs with
    | @cons c _ cs _ hc _ =>
      obtain ⟨a', ha', hdimension⟩ := hc
      cases ha'
      exact ⟨q, rfl, by rw [hq, hdimension, dimension, firstDimension]⟩

/-- The result is a quantity in the unit that is inferred from the units of the leaves. So
expressions of the same form whose leaves have the same units come to the same unit, whatever the
numbers in them are. -/
theorem eval_dimension (he : MadeOf infersUnit [.scalar] s b e) (h : e.eval s b = (.ok v, b')) :
    ∃ q, v = .scalar q ∧ q.dimension = e.dimension (s.dimension b) ∧
      ∀ e₂ s₂ b₂ v₂ c, MadeOf infersUnit [.scalar] s₂ b₂ e₂ → e₂.bare = e.bare →
        (∀ x ∈ e.names, s₂.dimension b₂ x = s.dimension b x) → e₂.eval s₂ b₂ = (.ok v₂, c) →
        ∃ q₂, v₂ = .scalar q₂ ∧ q₂.dimension = q.dimension := by
  obtain ⟨⟨q, rfl, hq⟩, -⟩ :=
    evalWithin_induction infersUnit_isOperation (fun _ _ => inUnit_of_yields) he h
  refine ⟨q, rfl, hq, fun e₂ s₂ b₂ v₂ c he₂ hbare hnames h₂ => ?_⟩
  obtain ⟨⟨q₂, rfl, hq₂⟩, -⟩ :=
    evalWithin_induction infersUnit_isOperation (fun _ _ => inUnit_of_yields) he₂ h₂
  refine ⟨q₂, rfl, ?_⟩
  calc q₂.dimension
    _ = e₂.bare.dimension (s₂.dimension b₂) := by rw [hq₂, dimension_bare]
    _ = e.dimension (s₂.dimension b₂) := by rw [hbare, dimension_bare]
    _ = e.dimension (s.dimension b) := dimension_congr hnames
    _ = q.dimension := hq.symm

def speed (start : Float) : Expr :=
  .binary (.arithmetic .div)
    (.binary (.arithmetic .sub) (.literal { value := start, dimension := { length := 1 } })
      (.name "d"))
    (.builtin .round [.unary .pos (.name "t"), .unary .factorial (.name "t")] none)

def trip (d t : ComplexFloat) : Scope where
  constants := .ofPairs [("d", .scalar ⟨d.re, d.im, { length := 1 }, 2⟩),
    ("t", .scalar ⟨t.re, t.im, { time := 1 }, 0⟩)]
  limit := 8

/-- A number that is none, less a complex one, over zero, is a speed like another. -/
theorem speed_dimension : ∃ q q₂, (speed 3).eval (trip ⟨1, 0⟩ ⟨2, 0⟩) {} = (.ok (.scalar q), {}) ∧
    q.dimension = { length := 1, time := -1 } ∧
    (speed notANumber).eval (trip ⟨0, 1⟩ ⟨0, 0⟩) {} = (.ok (.scalar q₂), {}) ∧
      q₂.dimension = q.dimension := by
  have he : MadeOf infersUnit [.scalar] (trip ⟨1, 0⟩ ⟨2, 0⟩) {} (speed 3) := ⟨by decide, by decide⟩
  have he₂ : MadeOf infersUnit [.scalar] (trip ⟨0, 1⟩ ⟨0, 0⟩) {} (speed notANumber) :=
    ⟨by decide, by decide⟩
  obtain ⟨q, hq, hdimension, hsame⟩ := eval_dimension he rfl
  obtain ⟨q₂, hq₂, hdimension₂⟩ := hsame _ _ _ _ _ he₂ rfl (by decide) rfl
  exact ⟨q, q₂, hq ▸ rfl, hdimension, hq₂ ▸ rfl, hdimension₂⟩

end Expr

end UnitSheet
