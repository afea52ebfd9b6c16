import UnitSheet.Proofs.Evaluation.Induction
import UnitSheet.Proofs.Value.Pointwise

namespace UnitSheet.Expr

open UnitSheet.Computation

def isPointwise : Expr → Bool
  | literal _ | name _ | unary .neg _ | binary (.arithmetic _) _ _ => true
  | _ => false

variable {s : Scope} {b b' : Bindings} {e : Expr} {v : Value} {ρ : String → Option Value}

def listLength? (ρ : String → Option Value) : Expr → Option Nat
  | name x => match ρ x with
    | some (.list qs) => some qs.length
    | _ => none
  | _ => none

def listLengths (ρ : String → Option Value) (e : Expr) :
    List Nat := e.nodes.filterMap (listLength? ρ)

theorem listLengths_eq (ρ : String → Option Value) (e : Expr) :
    e.listLengths ρ = (e.listLength? ρ).toList ++ e.children.flatMap (listLengths ρ) :=
  filterMap_nodes (listLength? ρ) e

/-- The element of an expression at a place, from the elements of its leaves there: an operation
takes only the real parts of its operands if there is a list below it. -/
def entry (ρ : String → Option Value) (i : Nat) : Expr → Option Quantity
  | literal l => some l.quantity
  | name x => (ρ x).bind (Value.entry i)
  | unary .neg operand => (operand.entry ρ i).map Quantity.negate
  | binary (.arithmetic op) left right => (left.entry ρ i).bind fun p =>
    (right.entry ρ i).bind fun q =>
      Value.combineEntries op ((binary (.arithmetic op) left right).listLengths ρ ≠ []) p q
  | _ => none

theorem isPointwise_isOperation (e : Expr) (h : e.isPointwise = true) : e.isOperation = true := by
  cases e with
  | builtin => rfl
  | call | list | assign | define => cases h
  | _ => rfl

theorem isPointwise_of_yields (he : MadeOf isPointwise [.scalar, .list] s b e)
    (h : Yields (s.get? b)
      (fun c w => w.IsPointwise (c.listLengths (s.get? b)) fun i => c.entry (s.get? b) i) e v) :
    v.IsPointwise (e.listLengths (s.get? b)) fun i => e.entry (s.get? b) i := by
  rw [listLengths_eq]
  cases h with
  | literal => exact ⟨rfl, fun _ => rfl⟩
  | @name x v hx =>
    cases v with
    | scalar q =>
      exact ⟨by simp [listLength?, hx, children], fun i => by simp [entry, hx, Value.entry]⟩
    | list qs =>
      exact ⟨by simp [listLength?, hx, children], fun i hi => by simp [entry, hx, Value.entry]⟩
    | _ => simpa [Value.shape] using he.shape_mem hx
  | @binary op left right v w u hl hr h =>
    cases op with
    | comparison => cases he.self
    | arithmetic op => simpa [entry, listLengths_eq _ (.binary _ _ _), listLength?, children]
      using hl.arithmetic hr h
  | @unary op operand v u hoperand h =>
    cases op with
    | neg => simpa [entry, listLength?, children] using hoperand.negate h
    | _ => cases he.self
  | builtin => cases he.self

/-- Without a list there is one quantity, and otherwise a list as long as the shortest list, with
the elements of the expression at each place. -/
theorem eval_pointwise (he : MadeOf isPointwise [.scalar, .list] s b e)
    (h : e.eval s b = (.ok v, b')) :
    (e.listLengths (s.get? b) = [] → ∃ q, v = .scalar q ∧ ∀ i, e.entry (s.get? b) i = some q) ∧
      ∀ m, (e.listLengths (s.get? b)).min? = some m →
        ∃ qs, v = .list qs ∧ qs.length = m ∧ ∀ i < m, e.entry (s.get? b) i = qs[i]? := by
  have hv :=
    (evalWithin_induction isPointwise_isOperation (fun _ _ => isPointwise_of_yields) he h).1
  constructor
  · intro hlengths
    rw [hlengths] at hv
    obtain ⟨q, rfl⟩ := Value.shape_eq_scalar.mp hv.shape
    exact ⟨q, rfl, hv.2⟩
  · intro m hm
    cases v with
    | scalar q =>
      rw [hv.1] at hm
      cases hm
    | list qs =>
      obtain rfl : qs.length = m := Option.some.inj (hv.1.symm.trans hm)
      exact ⟨qs, rfl, rfl, hv.2⟩
    | _ => cases hv

def square : Expr := .binary (.arithmetic .mul) (.name "z") (.name "z")

def lessSquare : Expr :=
  .binary (.arithmetic .sub) (.name "ys")
    (.unary .neg (.binary (.arithmetic .mul) square (.name "xs")))

def samples : Scope where
  constants := .ofPairs [("xs", .list [⟨1, 0, .none, 0⟩, ⟨2.5, 0, .none, 0⟩, ⟨3, 0, .none, 0⟩]),
    ("ys", .list [⟨4, 0, .none, 0⟩, ⟨5, 0, .none, 0⟩]), ("z", .scalar ⟨0, 1, .none, 0⟩)]
  limit := 8

/-- The third element has no partner, and the square is a plain number before it meets the list. -/
theorem lessSquare_pointwise :
    (∃ q, square.eval samples {} = (.ok (.scalar q), {}) ∧ square.entry (samples.get? {}) 0 =
    some q) ∧ ∃ qs, lessSquare.eval samples {} = (.ok (.list qs), {}) ∧ qs.length = 2 ∧
        ∀ i < 2, lessSquare.entry (samples.get? {}) i = qs[i]? := by
  have hsquare : MadeOf isPointwise [.scalar, .list] samples {} square := ⟨by decide, by decide⟩
  have hless : MadeOf isPointwise [.scalar, .list] samples {} lessSquare := ⟨by decide, by decide⟩
  obtain ⟨q, hq, hentry⟩ := (eval_pointwise hsquare rfl).1 rfl
  obtain ⟨qs, hqs, hlength, hentries⟩ := (eval_pointwise hless rfl).2 2 rfl
  exact ⟨⟨q, hq ▸ rfl, hentry 0⟩, qs, hqs ▸ rfl, hlength, hentries⟩

end UnitSheet.Expr
