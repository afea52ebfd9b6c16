import Mathlib.Data.Finset.Dedup
import Mathlib.Data.Finset.Lattice.Lemmas
import Mathlib.Data.Finset.SDiff
import UnitSheet.Proofs.Expr.Nodes

namespace UnitSheet.Expr

mutual

/-- The names that an expression reads, apart from those bound around it. -/
def freeNames (bound : Finset String) : Expr → Finset String
  | literal _ => ∅
  | name x => {x} \ bound
  | binary _ left right => left.freeNames bound ∪ right.freeNames bound
  | unary _ operand => operand.freeNames bound
  | builtin _ args none => freeNamesAll bound args
  | builtin _ args (some special) => freeNamesAll bound args ∪ special.freeNames bound
  | call f args => {f} \ bound ∪ freeNamesAll bound args
  | list items => freeNamesAll bound items
  | assign _ value => value.freeNames bound
  | define _ params body => body.freeNames (params.toFinset ∪ bound)

def freeNamesAll (bound : Finset String) : List Expr → Finset String
  | [] => ∅
  | e :: es => e.freeNames bound ∪ freeNamesAll bound es

end

variable {e : Expr} {es : List Expr} {x : String} {bound : Finset String}

theorem mem_freeNamesAll : x ∈ freeNamesAll bound es ↔ ∃ e ∈ es, x ∈ e.freeNames bound := by
  induction es with
  | nil => simp [freeNamesAll]
  | cons e es ih => rw [freeNamesAll, Finset.mem_union, ih, List.exists_mem_cons_iff]

theorem mem_freeNames_iff : x ∈ e.freeNames bound ↔ (e.head? = some x ∧ x ∉ bound) ∨
    ∃ c ∈ e.children, x ∈ c.freeNames (e.binders.toFinset ∪ bound) := by
  cases e with
  | builtin f args special =>
    cases special <;>
      simp [freeNames, head?, children, binders, mem_freeNamesAll, or_and_right, exists_or,
        Finset.empty_union]
  | _ => simp [freeNames, head?, children, binders, mem_freeNamesAll, eq_comm]

theorem mem_freeNames : x ∈ e.freeNames bound ↔ Free x e ∧ x ∉ bound := by
  induction e using induction_children generalizing bound with
  | h e ih =>
    have hchildren : (∃ c ∈ e.children, x ∈ c.freeNames (e.binders.toFinset ∪ bound)) ↔
        (x ∉ e.binders ∧ ∃ c ∈ e.children, Free x c) ∧ x ∉ bound := by
      constructor
      · intro ⟨c, hc, hx⟩
        obtain ⟨hfree, hbound⟩ := (ih c hc).mp hx
        rw [Finset.mem_union, List.mem_toFinset, not_or] at hbound
        exact ⟨⟨hbound.1, c, hc, hfree⟩, hbound.2⟩
      · intro ⟨⟨hbinders, c, hc, hfree⟩, hbound⟩
        refine ⟨c, hc, (ih c hc).mpr ⟨hfree, ?_⟩⟩
        rw [Finset.mem_union, List.mem_toFinset, not_or]
        exact ⟨hbinders, hbound⟩
    rw [mem_freeNames_iff, hchildren, free_iff, or_and_right]

theorem size_pos (e : Expr) : 0 < e.size := by
  rw [size_eq]
  exact Nat.succ_pos _

/-- The open nodes, each with the names bound around it, and the names collected so far. -/
structure Search where
  nodes : List (Expr × List String)
  names : List String

namespace Search

def start (e : Expr) : Search := ⟨[(e, [])], []⟩

/-- One open node is visited, whichever it is, and its children are put somewhere among the open
ones. -/
inductive Visits (s t : Search) : Prop
  | node (e : Expr) (bound : List String) (rest : List (Expr × List String))
    (hs : s.nodes.Perm ((e, bound) :: rest))
      (ht : t.nodes.Perm (e.children.map (·, e.binders ++ bound) ++ rest))
      (hnames : t.names = insertHead e bound s.names)

/-- So many visits lead from one search to another. -/
inductive Runs : Nat → Search → Search → Prop
  | nil (s : Search) : Runs 0 s s
  | cons {n : Nat} {s t u : Search} (h : Visits s t) (hs : Runs n t u) : Runs (n + 1) s u

def pending (s : Search) : Nat := (s.nodes.map (·.1.size)).sum

/-- The name has been collected or is still to come. -/
def Finds (s : Search) (x : String) : Prop := x ∈ s.names ∨ ∃ p ∈ s.nodes, Free x p.1 ∧ x ∉ p.2

variable {s t : Search} {n fuel : Nat}

theorem Visits.pending_eq (h : Visits s t) : s.pending = t.pending + 1 := by
  obtain ⟨e, bound, rest, hs, ht, -⟩ := h
  rw [pending, pending, (hs.map _).sum_eq, (ht.map _).sum_eq]
  exact sum_size_visit e bound rest

theorem Visits.finds_iff (h : Visits s t) : t.Finds x ↔ s.Finds x := by
  obtain ⟨e, bound, rest, hs, ht, hnames⟩ := h
  simp only [Finds, hs.mem_iff, ht.mem_iff, hnames]
  exact found_visit

theorem Runs.pending_eq (h : Runs n s t) : s.pending = t.pending + n := by
  induction h with
  | nil => rfl
  | cons hvisit _ ih =>
    rw [hvisit.pending_eq, ih]
    omega

theorem Runs.finds_iff (h : Runs n s t) : t.Finds x ↔ s.Finds x := by
  induction h with
  | nil => rfl
  | cons hvisit _ ih => rw [ih, hvisit.finds_iff]

theorem nodes_eq_nil_iff : s.nodes = [] ↔ s.pending = 0 := by
  rw [pending]
  cases s.nodes with
  | nil => simp
  | cons p rest =>
    have hpos := size_pos p.1
    simp only [reduceCtorEq, List.map_cons, List.sum_cons, false_iff]
    omega

theorem visits_head (e : Expr) (bound : List String) (rest : List (Expr × List String))
    (names : List String) :
    Visits ⟨(e, bound) :: rest, names⟩ ⟨e.children.map (·, e.binders ++ bound) ++ rest,
      insertHead e bound names⟩ :=
  .node e bound rest (.refl _) (.refl _) rfl

theorem exists_visits (h : s.nodes ≠ []) : ∃ t, Visits s t := by
  obtain ⟨nodes, names⟩ := s
  obtain ⟨⟨e, bound⟩, rest, rfl⟩ := List.exists_cons_of_ne_nil h
  exact ⟨_, visits_head e bound rest names⟩

/-- The work list is such a search, and with enough fuel it comes to the end. -/
theorem runs_collect (h : s.pending ≤ fuel) :
    Runs s.pending s ⟨[], collect fuel s.nodes s.names⟩ := by
  induction fuel generalizing s with
  | zero =>
    obtain ⟨nodes, names⟩ := s
    obtain rfl : nodes = [] := nodes_eq_nil_iff.mpr (Nat.le_zero.mp h)
    exact .nil _
  | succ fuel ih =>
    obtain ⟨nodes, names⟩ := s
    cases nodes with
    | nil => exact .nil _
    | cons p rest =>
      have hvisit := visits_head p.1 p.2 rest names
      rw [hvisit.pending_eq] at h ⊢
      exact .cons hvisit (ih (Nat.le_of_succ_le_succ h))

/-- Fuel beyond what is pending changes nothing. -/
theorem collect_eq (h : s.pending ≤ fuel) :
    collect fuel s.nodes s.names = collect s.pending s.nodes s.names := by
  induction fuel generalizing s with
  | zero => rw [Nat.le_zero.mp h]
  | succ fuel ih =>
    obtain ⟨nodes, names⟩ := s
    cases nodes with
    | nil => rfl
    | cons p rest =>
      rw [(visits_head p.1 p.2 rest names).pending_eq] at h ⊢
      exact ih (Nat.le_of_succ_le_succ h)

end Search

theorem nodup_insertHead {bound names : List String} (h : names.Nodup) :
    (insertHead e bound names).Nodup := by
  rw [insertHead]
  split
  · rw [insertName]
    split
    · exact h
    · split
      · exact h
      · next hx => exact List.nodup_cons.mpr ⟨hx, h⟩
  · exact h

theorem nodup_collect {fuel : Nat} {nodes : List (Expr × List String)} {names : List String}
    (h : names.Nodup) : (collect fuel nodes names).Nodup := by
  induction fuel generalizing nodes names with
  | zero =>
    cases nodes <;> exact h
  | succ fuel ih =>
    cases nodes with
    | nil => exact h
    | cons p rest => exact ih (nodup_insertHead h)

open Search in
/-- The names collected are the free ones, each of them once, and more fuel brings no others. In
whatever order open nodes are visited, the search goes on until as many have been visited as there
are nodes, and ends with the free names. -/
theorem names_are_free (e : Expr) :
    e.names.toFinset = e.freeNames ∅ ∧ e.names.Nodup ∧
      (∀ fuel, e.size ≤ fuel → collect fuel [(e, [])] [] = e.names) ∧
      Runs e.size (start e) ⟨[], e.names⟩ ∧
      ∀ n s, Runs n (start e) s → (s.nodes ≠ [] ∧ n < e.size ∧ ∃ t, Visits s t) ∨
        (s.nodes = [] ∧ n = e.size ∧ s.names.toFinset = e.freeNames ∅) := by
  have hpending : pending (start e) = e.size := by simp [pending, start]
  have hfinds (x : String) : (start e).Finds x ↔ x ∈ e.freeNames ∅ := by
    simp [Finds, start, mem_freeNames]
  have hfound {s : Search} (hs : s.nodes = []) (h : ∀ x, s.Finds x ↔ (start e).Finds x) :
      s.names.toFinset = e.freeNames ∅ := by
    ext x
    rw [List.mem_toFinset, ← hfinds, ← h, Finds, hs]
    simp
  have hruns : Runs e.size (start e) ⟨[], e.names⟩ := hpending ▸ runs_collect hpending.le
  refine ⟨hfound rfl fun x => hruns.finds_iff, nodup_collect List.nodup_nil, ?_, hruns, ?_⟩
  · intro fuel hfuel
    rw [← hpending] at hfuel
    exact (collect_eq hfuel).trans (by rw [hpending]; rfl)
  · intro n s hs
    have heq := hs.pending_eq
    rw [hpending] at heq
    by_cases hnil : s.nodes = []
    · rw [nodes_eq_nil_iff.mp hnil, Nat.zero_add] at heq
      exact .inr ⟨hnil, heq.symm, hfound hnil fun x => hs.finds_iff⟩
    · have hpos : s.pending ≠ 0 := fun h => hnil (nodes_eq_nil_iff.mpr h)
      exact .inl ⟨hnil, by omega, exists_visits hnil⟩

def shadowing : Expr :=
  .define "f" ["x"] (.binary (.arithmetic .add)
    (.builtin .log [mul (.name "x") (.name "y")] (some (.name "b")))
    (.define "x" ["y"] (mul (.call "x" [.name "z"]) (.name "y"))))

theorem shadowing_names_are_free :
    shadowing.size ≤ 20 ∧ collect 20 [(shadowing, [])] [] = shadowing.names ∧
    shadowing.names.toFinset = {"b", "y", "z"} := by
  obtain ⟨hnames, -, hfuel, -⟩ := names_are_free shadowing
  have hsize : shadowing.size ≤ 20 := by decide
  exact ⟨hsize, hfuel 20 hsize, hnames.trans (by decide)⟩

end UnitSheet.Expr
