import Mathlib.Algebra.GroupWithZero.Nat
import Mathlib.Logic.Relation
import UnitSheet.Expr.Names

namespace UnitSheet.Expr

open Relation

variable {e c : Expr} {x : String}

/-- A node reads the name, and no definition around the node binds it. -/
inductive Free (x : String) : Expr → Prop
  | head {e : Expr} (h : e.head? = some x) : Free x e
  | child {e c : Expr} (hc : c ∈ e.children) (hb : x ∉ e.binders) (h : Free x c) : Free x e

theorem free_iff : Free x e ↔ e.head? = some x ∨ x ∉ e.binders ∧ ∃ c ∈ e.children, Free x c := by
  constructor
  · intro h
    cases h with
    | head h => exact .inl h
    | child hc hb h => exact .inr ⟨hb, _, hc, h⟩
  · rintro (h | ⟨hb, c, hc, h⟩)
    · exact .head h
    · exact .child hc hb h

theorem sizeAll_eq (es : List Expr) : sizeAll es = (es.map size).sum := by
  induction es with
  | nil => rfl
  | cons e es ih => rw [sizeAll, ih, List.map_cons, List.sum_cons]

theorem size_eq (e : Expr) : e.size = (e.children.map size).sum + 1 := by
  cases e with
  | builtin f args special =>
    cases special <;> simp [size, children, sizeAll_eq]
  | _ => simp [size, children, sizeAll_eq]

theorem mem_insertName {y : String} {names : List String} :
    x ∈ insertName y names ↔ x = y ∨ x ∈ names := by
  rw [insertName]
  split
  · next h => exact ⟨.inr, fun hx => hx.elim (· ▸ h) id⟩
  · exact List.mem_cons

theorem mem_insertHead {bound names : List String} :
    x ∈ insertHead e bound names ↔ (e.head? = some x ∧ x ∉ bound) ∨ x ∈ names := by
  rw [insertHead]
  cases e.head? with
  | none => simp
  | some y =>
    by_cases hy : y ∈ bound
    · simp only [if_pos hy, Option.some.injEq]
      exact ⟨.inr, fun h => h.elim (fun ⟨he, hx⟩ => (hx (he ▸ hy)).elim) id⟩
    · simp only [if_neg hy, mem_insertName, Option.some.injEq]
      exact or_congr_left ⟨fun h => ⟨h.symm, h ▸ hy⟩, fun h => h.1.symm⟩

theorem found_visit {bound names : List String} {rest : List (Expr × List String)} :
    (x ∈ insertHead e bound names ∨ ∃ p ∈ e.children.map (·, e.binders ++ bound) ++ rest,
    Free x p.1 ∧ x ∉ p.2) ↔ x ∈ names ∨ ∃ p ∈ (e, bound) :: rest, Free x p.1 ∧ x ∉ p.2 := by
  have hopen : (∃ p ∈ e.children.map (·, e.binders ++ bound), Free x p.1 ∧ x ∉ p.2) ↔
      (x ∉ e.binders ∧ ∃ c ∈ e.children, Free x c) ∧ x ∉ bound := by
    constructor
    · intro ⟨p, hp, hfree, hx⟩
      obtain ⟨c, hc, rfl⟩ := List.mem_map.mp hp
      have hx' : x ∉ e.binders ∧ x ∉ bound := by simpa using hx
      exact ⟨⟨hx'.1, c, hc, hfree⟩, hx'.2⟩
    · intro ⟨⟨hb, c, hc, hfree⟩, hx⟩
      exact ⟨_, List.mem_map_of_mem hc, hfree, List.not_mem_append hb hx⟩
  simp only [List.mem_append, or_and_right, exists_or, List.mem_cons, exists_eq_left]
  rw [mem_insertHead, hopen, free_iff, or_and_right, or_assoc, or_assoc, or_left_comm]

theorem sum_size_visit (e : Expr) (bound : List String) (rest : List (Expr × List String)) :
    (((e, bound) :: rest).map (·.1.size)).sum =
      ((e.children.map (·, e.binders ++ bound) ++ rest).map (·.1.size)).sum + 1 := by
  have hchildren : ((e.children.map (·, e.binders ++ bound)).map (·.1.size)).sum =
      (e.children.map size).sum := by
    rw [List.map_map]
    rfl
  rw [List.map_append, List.sum_append, hchildren, List.map_cons, List.sum_cons, size_eq e]
  omega

/-- The work list collects what its open nodes read, if the fuel lasts for all of them. -/
theorem mem_collect {fuel : Nat} {nodes : List (Expr × List String)} {names : List String}
    (hf : (nodes.map (·.1.size)).sum ≤ fuel) :
    x ∈ collect fuel nodes names ↔ x ∈ names ∨ ∃ p ∈ nodes, Free x p.1 ∧ x ∉ p.2 := by
  induction fuel generalizing nodes names with
  | zero =>
    cases nodes with
    | nil => simp [collect]
    | cons p rest =>
      rw [sum_size_visit] at hf
      omega
  | succ fuel ih =>
    cases nodes with
    | nil => simp [collect]
    | cons p rest =>
      rw [sum_size_visit] at hf
      rw [collect, ih (Nat.le_of_succ_le_succ hf), found_visit]

theorem mem_names : x ∈ e.names ↔ Free x e := by
  rw [names, mem_collect (by simp)]
  simp

abbrev Contains : Expr → Expr → Prop := ReflTransGen fun e c => c ∈ e.children

/-- Some node of the expression assigns to the name. -/
def Assigns (e : Expr) (x : String) : Prop := ∃ c, Contains e c ∧ c.target? = some x

/-- Some node below the root assigns to the name. -/
def AssignsBelow (e : Expr) (x : String) : Prop := ∃ c ∈ e.children, c.Assigns x

theorem assigns_iff : e.Assigns x ↔ e.target? = some x ∨ e.AssignsBelow x := by
  constructor
  · intro ⟨c, hc, hx⟩
    rcases hc.cases_head with rfl | ⟨d, hd, hc⟩
    · exact .inl hx
    · exact .inr ⟨d, hd, c, hc, hx⟩
  · rintro (hx | ⟨d, hd, c, hc, hx⟩)
    · exact ⟨e, .refl, hx⟩
    · exact ⟨c, .head hd hc, hx⟩

end UnitSheet.Expr
