import Mathlib.Algebra.Order.BigOperators.Group.List
import Mathlib.Algebra.Order.Group.Nat
import UnitSheet.Proofs.Expr.Names

namespace UnitSheet.Expr

open Relation

mutual

def nodes : Expr → List Expr
  | literal l => [literal l]
  | name x => [name x]
  | binary op left right => binary op left right :: (left.nodes ++ right.nodes)
  | unary op operand => unary op operand :: operand.nodes
  | builtin f args none => builtin f args none :: nodesAll args
  | builtin f args (some special) => builtin f args
    (some special) :: (nodesAll args ++ special.nodes)
  | call f args => call f args :: nodesAll args
  | list items => list items :: nodesAll items
  | assign x value => assign x value :: value.nodes
  | define f params body => define f params body :: body.nodes

def nodesAll : List Expr → List Expr
  | [] => []
  | e :: es => e.nodes ++ nodesAll es

end

mutual

/-- The number of nodes on a longest path from the root to a leaf. -/
def height : Expr → Nat
  | literal _ | name _ => 1
  | binary _ left right => max left.height right.height + 1
  | unary _ operand => operand.height + 1
  | builtin _ args none => heightAll args + 1
  | builtin _ args (some special) => max (heightAll args) special.height + 1
  | call _ args => heightAll args + 1
  | list items => heightAll items + 1
  | assign _ value => value.height + 1
  | define _ _ body => body.height + 1

def heightAll : List Expr → Nat
  | [] => 0
  | e :: es => max e.height (heightAll es)

end

variable {e c : Expr} {es : List Expr} {n : Nat}

theorem size_lt_of_mem_children (h : c ∈ e.children) : c.size < e.size := by
  have hle : c.size ≤ (e.children.map size).sum := List.le_sum_of_mem (List.mem_map_of_mem h)
  rw [size_eq e]
  omega

/-- What holds of an expression when it holds of its children holds of every expression. -/
theorem induction_children {P : Expr → Prop} (h : ∀ e : Expr, (∀ c ∈ e.children, P c) → P e)
    (e : Expr) : P e := by
  induction hn : e.size using Nat.strongRecOn generalizing e with
  | ind n ih => exact h e fun c hc => ih c.size (hn ▸ size_lt_of_mem_children hc) c rfl

theorem nodesAll_eq (es : List Expr) : nodesAll es = es.flatMap nodes := by
  induction es with
  | nil => rfl
  | cons e es ih => rw [nodesAll, ih, List.flatMap_cons]

theorem nodes_eq (e : Expr) : e.nodes = e :: e.children.flatMap nodes := by
  cases e with
  | builtin f args special =>
    cases special <;> simp [nodes, children, nodesAll_eq]
  | _ => simp [nodes, children, nodesAll_eq]

/-- What is picked from all nodes comes from the root, and from the nodes of each child in turn. -/
theorem filterMap_nodes {α : Type} (pick : Expr → Option α) (e : Expr) : e.nodes.filterMap pick =
    (pick e).toList ++ e.children.flatMap fun c => c.nodes.filterMap pick := by
  rw [nodes_eq, List.filterMap_cons, List.filterMap_flatMap]
  cases pick e <;> rfl

theorem mem_nodes : c ∈ e.nodes ↔ e.Contains c := by
  constructor
  · intro h
    induction e using induction_children with
    | h e ih =>
      rw [nodes_eq] at h
      rcases List.mem_cons.mp h with rfl | h
      · exact .refl
      · obtain ⟨d, hd, hc⟩ := List.mem_flatMap.mp h
        exact .head hd (ih d hd hc)
  · intro h
    induction h using ReflTransGen.head_induction_on with
    | refl =>
      rw [nodes_eq]
      exact List.mem_cons_self
    | head hd _ ih =>
      rw [nodes_eq]
      exact List.mem_cons_of_mem _ (List.mem_flatMap.mpr ⟨_, hd, ih⟩)

instance {p : Expr → Prop} [DecidablePred p] : Decidable (∀ c, e.Contains c → p c) :=
  decidable_of_iff (∀ c ∈ e.nodes, p c) (forall_congr' fun _ => imp_congr_left mem_nodes)

theorem assigns_none_iff : (∀ x, ¬ e.Assigns x) ↔ ∀ c, e.Contains c → c.target? = none := by
  constructor
  · intro h c hc
    cases ht : c.target? with
    | none => rfl
    | some x => exact (h x ⟨c, hc, ht⟩).elim
  · intro h x ⟨c, hc, ht⟩
    rw [h c hc] at ht
    cases ht

instance : Decidable (∀ x, ¬ e.Assigns x) := decidable_of_iff _ assigns_none_iff.symm

theorem heightAll_le_iff : heightAll es ≤ n ↔ ∀ e ∈ es, e.height ≤ n := by
  induction es with
  | nil => simp [heightAll]
  | cons e es ih => rw [heightAll, Nat.max_le, ih, List.forall_mem_cons]

theorem height_le_succ_iff : e.height ≤ n + 1 ↔ ∀ c ∈ e.children, c.height ≤ n := by
  cases e with
  | builtin f args special =>
    cases special <;> simp [height, children, heightAll_le_iff, or_imp, forall_and]
  | _ => simp [height, children, heightAll_le_iff]

theorem height_pos (e : Expr) : 0 < e.height := by
  rw [Nat.pos_iff_ne_zero]
  intro h
  cases e with
  | builtin f args special => cases special <;> cases h
  | _ => cases h

end UnitSheet.Expr
