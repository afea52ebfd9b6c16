import Mathlib.Data.List.Basic
import UnitSheet.Proofs.Plan.Edges

namespace UnitSheet.Plan

open Relation

variable {constants : Bindings} {slots : List SlotNames} {x : String} {i j d u v : Nat}

theorem consecutive_mem {l : List Nat} (h : (u, v) ∈ consecutive l) : u ∈ l ∧ v ∈ l := by
  induction l with
  | nil => simp [consecutive] at h
  | cons a l ih =>
    cases l with
    | nil => simp [consecutive] at h
    | cons b l =>
      rw [consecutive] at h
      rcases List.mem_cons.mp h with h | h
      · cases h
        exact ⟨List.mem_cons_self, List.mem_cons_of_mem _ List.mem_cons_self⟩
      · exact ⟨List.mem_cons_of_mem _ (ih h).1, List.mem_cons_of_mem _ (ih h).2⟩

theorem consecutive_lt {l : List Nat} (hl : l.Pairwise (· < ·)) (h : (u, v) ∈ consecutive l) :
    u < v := by
  induction l with
  | nil => simp [consecutive] at h
  | cons a l ih =>
    cases l with
    | nil => simp [consecutive] at h
    | cons b l =>
      obtain ⟨ha, hl⟩ := List.pairwise_cons.mp hl
      rw [consecutive] at h
      rcases List.mem_cons.mp h with h | h
      · cases h
        exact ha _ List.mem_cons_self
      · exact ih hl h

theorem consecutive_path {l : List Nat} (hl : l.Pairwise (· < ·)) (hu : u ∈ l) (hv : v ∈ l)
    (hlt : u < v) : TransGen (fun u v => (u, v) ∈ consecutive l) u v := by
  induction l generalizing u with
  | nil => simp at hu
  | cons a rest ih =>
    obtain ⟨ha, hrest⟩ := List.pairwise_cons.mp hl
    have hvr : v ∈ rest := by
      rcases List.mem_cons.mp hv with rfl | h
      · rcases List.mem_cons.mp hu with rfl | hur
        · omega
        · have := ha u hur
          omega
      · exact h
    cases rest with
    | nil => simp at hvr
    | cons b rest =>
      have hmono {p q : Nat} (h : TransGen (fun u v => (u, v) ∈ consecutive (b :: rest)) p q) :
          TransGen (fun u v => (u, v) ∈ consecutive (a :: b :: rest)) p q :=
        TransGen.mono (fun _ _ h => List.mem_cons_of_mem _ h) _ _ h
      rcases List.mem_cons.mp hu with rfl | hur
      · have hfirst : (u, b) ∈ consecutive (u :: b :: rest) := List.mem_cons_self
        rcases List.mem_cons.mp hvr with rfl | hvr'
        · exact .single hfirst
        · have hbv : b < v := (List.pairwise_cons.mp hrest).1 v hvr'
          exact (TransGen.single hfirst).trans (hmono (ih hrest List.mem_cons_self hvr hbv))
      · exact hmono (ih hrest hur hvr hlt)

theorem mem_chainEdges :
    (u, v) ∈ chainEdges slots ↔ ∃ x, (u, v) ∈ consecutive (definitions slots x) := by
  rw [chainEdges, List.mem_flatMap]
  constructor
  · rintro ⟨x, -, h⟩
    exact ⟨x, h⟩
  · intro ⟨x, h⟩
    exact ⟨x, mem_targets.mpr ⟨u, mem_definitions.mp (consecutive_mem h).1⟩, h⟩

/-- The three families of edges. -/
theorem mem_edges : (u, v) ∈ edges constants slots ↔
    (u, v) ∈ chainEdges slots ∨ (u, v) ∈ answerEdges slots ∨
      ∃ i x, x ∈ reads slots i ∧ constants.contains x = false ∧ (u, v) ∈ readEdges slots i x := by
  simp only [edges, List.mem_append, List.mem_flatMap, List.mem_range, List.mem_filter, or_assoc,
    Bool.not_eq_true']
  refine or_congr_right (or_congr_right ⟨?_, ?_⟩)
  · rintro ⟨i, -, x, ⟨hx, hc⟩, h⟩
    exact ⟨i, x, hx, hc, h⟩
  · intro ⟨i, x, hx, hc, h⟩
    exact ⟨i, lt_of_mem_reads hx, x, ⟨hx, hc⟩, h⟩

theorem edges_lt (h : (u, v) ∈ edges constants slots) : u < slots.length ∧ v < slots.length := by
  rcases mem_edges.mp h with h | h | ⟨i, x, hx, -, h⟩
  · obtain ⟨x, h⟩ := mem_chainEdges.mp h
    obtain ⟨hu, hv⟩ := consecutive_mem h
    exact ⟨(mem_definitions.mp hu).lt, (mem_definitions.mp hv).lt⟩
  · obtain ⟨-, hv, hlt⟩ := mem_answerEdges.mp h
    have := lt_of_mem_reads hv
    omega
  · have hi := lt_of_mem_reads hx
    obtain ⟨d, hd, ⟨rfl, rfl⟩ | ⟨rfl, hv, -, -⟩⟩ := mem_readEdges.mp h
    · exact ⟨hd.defines.lt, hi⟩
    · exact ⟨hi, hv.lt⟩

theorem definitions_path (hu : Defines slots u x) (hv : Defines slots v x) (hlt : u < v) :
    TransGen (fun u v => (u, v) ∈ edges constants slots) u v :=
  TransGen.mono (fun _ _ h => mem_edges.mpr (.inl (mem_chainEdges.mpr ⟨x, h⟩))) _ _
    (consecutive_path (definitions_sorted slots x)
      (mem_definitions.mpr hu) (mem_definitions.mpr hv) hlt)

theorem IsSource.edge (h : IsSource slots x i d) (hx : x ∈ reads slots i)
    (hc : constants.contains x = false) : (d, i) ∈ edges constants slots :=
  mem_edges.mpr (.inr (.inr ⟨i, x, hx, hc, mem_readEdges.mpr ⟨d, h, .inl ⟨rfl, rfl⟩⟩⟩))

theorem IsSource.edge_to_later (h : IsSource slots x i d) (hx : x ∈ reads slots i)
    (hc : constants.contains x = false) (hv : Defines slots v x) (hne : v ≠ i) (hlt : d < v) :
    (i, v) ∈ edges constants slots :=
  mem_edges.mpr (.inr (.inr ⟨i, x, hx, hc, mem_readEdges.mpr ⟨d, h, .inr ⟨rfl, hv, hne, hlt⟩⟩⟩))

theorem order_perm (constants : Bindings) (slots : List SlotNames) :
    (ofSlots constants slots).order.Perm (List.range slots.length) :=
  schedule_perm ..

theorem order_nodup (constants : Bindings) (slots : List SlotNames) :
    (ofSlots constants slots).order.Nodup :=
  (order_perm constants slots).nodup_iff.mpr List.nodup_range

theorem mem_order : i ∈ (ofSlots constants slots).order ↔ i < slots.length :=
  (order_perm constants slots).mem_iff.trans List.mem_range

theorem not_mem_of_order {before after : List Nat}
    (ho : (ofSlots constants slots).order = before ++ i :: after) : i ∉ before ∧ i ∉ after := by
  have hn := order_nodup constants slots
  rw [ho, List.nodup_append] at hn
  obtain ⟨-, hafter, hbefore⟩ := hn
  exact ⟨fun hi => hbefore i hi i List.mem_cons_self rfl, (List.nodup_cons.mp hafter).1⟩

theorem before_unique {before before' after : List Nat}
    (hp : before ++ [i] <+: (ofSlots constants slots).order)
    (ho : (ofSlots constants slots).order = before' ++ i :: after) : before = before' := by
  obtain ⟨after', h⟩ := hp
  rw [List.append_assoc, List.singleton_append] at h
  obtain ⟨hi, hi'⟩ := not_mem_of_order h.symm
  exact ((List.append_cons_inj_of_notMem hi hi').mp (h.trans ho)).1

theorem stuck_sorted (constants : Bindings) (slots : List SlotNames) :
    (ofSlots constants slots).stuck.Pairwise (· < ·) :=
  List.pairwise_lt_range.sublist (schedule_stuck_sublist ..)

theorem path_lt (hp : TransGen (fun u v => (u, v) ∈ edges constants slots) u v) :
    u < slots.length ∧ v < slots.length := by
  obtain ⟨w, hu, -⟩ := TransGen.head'_iff.mp hp
  obtain ⟨w', -, hv⟩ := TransGen.tail'_iff.mp hp
  exact ⟨(edges_lt hu).1, (edges_lt hv).2⟩

theorem mem_before_ordered (hp : TransGen (fun u v => (u, v) ∈ edges constants slots) j i)
    (hi : i ∈ (ofSlots constants slots).ordered) {before after : List Nat}
    (ho : (ofSlots constants slots).order = before ++ i :: after) : j ∈ before := by
  obtain ⟨front, back, hordered⟩ := List.append_of_mem hi
  have hbefore : before ++ [i] <+: (ofSlots constants slots).order := ⟨after, by simp [ho]⟩
  have hsplit : (ofSlots constants slots).order = front ++ i ::
      (back ++ (ofSlots constants slots).stuck) := by
    rw [order, hordered, List.append_assoc]
    rfl
  rw [before_unique hbefore hsplit]
  exact schedule_path _ hp hordered

theorem mem_before_stuck (hi : i ∈ (ofSlots constants slots).stuck) {before after : List Nat}
    (ho : (ofSlots constants slots).order = before ++ i :: after) :
    j ∈ before ↔ j ∈ (ofSlots constants slots).ordered ∨ j ∈ (ofSlots constants slots).stuck ∧
      j < i := by
  obtain ⟨front, back, hstuck⟩ := List.append_of_mem hi
  have hbefore : before ++ [i] <+: (ofSlots constants slots).order := ⟨after, by simp [ho]⟩
  have hsplit : (ofSlots constants slots).order =
      (ofSlots constants slots).ordered ++ front ++ i :: back := by
    rw [order, hstuck, List.append_assoc]
  have hsorted := stuck_sorted constants slots
  rw [hstuck] at hsorted
  obtain ⟨-, hback, hfront⟩ := List.pairwise_append.mp hsorted
  rw [before_unique hbefore hsplit, List.mem_append, hstuck]
  refine or_congr_right ⟨fun hj => ⟨List.mem_append_left _ hj, hfront j hj i List.mem_cons_self⟩,
    fun ⟨hj, hlt⟩ => ?_⟩
  rcases List.mem_append.mp hj with hj | hj
  · exact hj
  · rcases List.mem_cons.mp hj with rfl | hj
    · exact absurd hlt (Nat.lt_irrefl _)
    · exact absurd hlt (Nat.lt_asymm ((List.pairwise_cons.mp hback).1 j hj))

/-- Edges that lead forward in the input are followed also where cycles keep some slots waiting. -/
theorem before_of_path (hp : TransGen (fun u v => (u, v) ∈ edges constants slots) j i) (hj : j < i)
    {before after : List Nat} (ho : (ofSlots constants slots).order = before ++ i :: after) :
    j ∈ before := by
  have hmem : j ∈ (ofSlots constants slots).order := mem_order.mpr (path_lt hp).1
  have hi : i ∈ (ofSlots constants slots).order := mem_order.mpr (path_lt hp).2
  rcases List.mem_append.mp hi with hi | hi
  · exact mem_before_ordered hp hi ho
  · exact (mem_before_stuck hi ho).mpr ((List.mem_append.mp hmem).imp_right fun h => ⟨h, hj⟩)

theorem not_mem_of_later_definition (hi : Defines slots i x) (hj : Defines slots j x) (hij : i < j)
    {before : List Nat} (hp : before ++ [i] <+: (ofSlots constants slots).order) : j ∉ before := by
  obtain ⟨after, ho⟩ := hp
  rw [List.append_assoc, List.singleton_append] at ho
  intro hmem
  obtain ⟨front, back, rfl⟩ := List.append_of_mem hmem
  have hsplit : (ofSlots constants slots).order = front ++ j :: (back ++ i :: after) := by
    rw [← ho, List.append_assoc, List.cons_append]
  have hfront := before_of_path (definitions_path hi hj hij) hij hsplit
  exact (not_mem_of_order ho.symm).1 (List.mem_append_left _ hfront)

theorem before_answer_reader (hnone : ∀ k, ¬ Defines slots k answerName)
    (hread : answerName ∈ reads slots i)
    {before after : List Nat} (ho : (ofSlots constants slots).order = before ++ i :: after)
    (hj : j < i) : j ∈ before :=
  before_of_path
    (.single (mem_edges.mpr (.inr (.inl (mem_answerEdges.mpr ⟨hnone, hread, hj⟩))))) hj ho

theorem edges_from_pending (constants : Bindings) (slots : List SlotNames) :
    ∀ e ∈ edges constants slots, e.1 ∈ List.range slots.length :=
  fun _ he => List.mem_range.mpr (edges_lt he).1

theorem Acyclic.stuck (h : Acyclic (edges constants slots)) :
    (ofSlots constants slots).stuck = [] :=
  h.schedule_stuck_nil _ (by rw [List.length_range]) List.nodup_range
    (edges_from_pending constants slots)

theorem Acyclic.order (h : Acyclic (edges constants slots)) :
    (ofSlots constants slots).order = (ofSlots constants slots).ordered := by
  rw [Plan.order, h.stuck, List.append_nil]

/-- Without cycles the order follows every path of edges. -/
theorem Acyclic.path (h : Acyclic (edges constants slots))
    (hp : TransGen (fun u v => (u, v) ∈ edges constants slots) u v) {before after : List Nat}
    (ho : (ofSlots constants slots).order = before ++ v :: after) : u ∈ before :=
  schedule_path _ hp (h.order ▸ ho)

/-- The definition that a reader sees is the last one before it in the order. -/
theorem Acyclic.source_last (h : Acyclic (edges constants slots)) (hs : IsSource slots x i d)
    (hx : x ∈ reads slots i) (hc : constants.contains x = false) {before after : List Nat}
    (ho : (ofSlots constants slots).order = before ++ i :: after) :
    ∃ front back, before = front ++ d :: back ∧ ∀ j ∈ back, ¬ Defines slots j x := by
  have hd : d ∈ before := h.path (.single (hs.edge hx hc)) ho
  obtain ⟨front, back, rfl⟩ := List.append_of_mem hd
  refine ⟨front, back, rfl, fun j hj hdef => ?_⟩
  have hn := order_nodup constants slots
  rw [ho] at hn
  have hne : j ≠ i ∧ j ≠ d ∧ j ∉ front := by
    simp only [List.nodup_append, List.nodup_cons, List.mem_append, List.mem_cons] at hn
    grind
  rcases Nat.lt_or_gt_of_ne hne.2.1 with hlt | hgt
  · -- an earlier definition is ordered before the one that is read
    have ho' : (ofSlots constants slots).order = front ++ d :: (back ++ i :: after) := by
      rw [ho, List.append_assoc, List.cons_append]
    exact hne.2.2 (h.path (definitions_path hdef hs.defines hlt) ho')
  · -- and a later one after the reader
    obtain ⟨mid, back, rfl⟩ := List.append_of_mem hj
    have ho' : (ofSlots constants slots).order = (front ++ d :: mid) ++ j ::
        (back ++ i :: after) := by
      simp only [ho, List.append_assoc, List.cons_append]
    have hi := h.path (.single (hs.edge_to_later hx hc hdef hne.1 hgt)) ho'
    simp only [List.nodup_append, List.nodup_cons, List.mem_append, List.mem_cons] at hn hi
    grind

/-- A reader of a name with another definition has an earlier one. -/
def NoForwardReference (constants : Bindings) (slots : List SlotNames) : Prop :=
  ∀ i x, x ∈ reads slots i → constants.contains x = false → (∃ j, j ≠ i ∧ Defines slots j x) →
    ∃ j, j < i ∧ Defines slots j x

theorem noForwardReference_iff : NoForwardReference constants slots ↔
    ∀ i ∈ List.range slots.length, ∀ x ∈ reads slots i, constants.contains x = false →
      (∃ j ∈ List.range slots.length, j ≠ i ∧ Defines slots j x) → ∃ j ∈ List.range i,
      Defines slots j x := by
  constructor
  · intro h i _ x hx hc ⟨j, _, hj⟩
    obtain ⟨k, hk, hdef⟩ := h i x hx hc ⟨j, hj⟩
    exact ⟨k, List.mem_range.mpr hk, hdef⟩
  · intro h i x hx hc ⟨j, hne, hdef⟩
    obtain ⟨k, hk, hk'⟩ := h i (List.mem_range.mpr (lt_of_mem_reads hx)) x hx hc
      ⟨j, List.mem_range.mpr hdef.lt, hne, hdef⟩
    exact ⟨k, List.mem_range.mp hk, hk'⟩

instance : Decidable (NoForwardReference constants slots) :=
  decidable_of_iff' _ noForwardReference_iff

theorem NoForwardReference.edge_lt (h : NoForwardReference constants slots)
    (he : (u, v) ∈ edges constants slots) : u < v := by
  rcases mem_edges.mp he with he | he | ⟨i, x, hx, hc, he⟩
  · obtain ⟨x, he⟩ := mem_chainEdges.mp he
    exact consecutive_lt (definitions_sorted slots x) he
  · exact (mem_answerEdges.mp he).2.2
  · obtain ⟨d, hd, hcase⟩ := mem_readEdges.mp he
    obtain ⟨j, hji, hj⟩ := h i x hx hc ⟨d, hd.ne, hd.defines⟩
    cases hd with
    | after _ _ hnone => exact (hnone j hj hji).elim
    | before hdef hlt hnearest =>
      rcases hcase with ⟨rfl, rfl⟩ | ⟨rfl, hv, hne, hdv⟩
      · exact hlt
      · by_contra hge
        have := hnearest v hv (by omega)
        omega

/-- Without forward references the slots run in their own order, and none is stuck. -/
theorem NoForwardReference.plan (h : NoForwardReference constants slots) :
    ofSlots constants slots = ⟨List.range slots.length, []⟩ := by
  have hs := schedule_forward slots.length (by rw [List.length_range]) List.pairwise_lt_range
    (edges_from_pending constants slots) fun e he => h.edge_lt he
  rw [ofSlots, hs]

end UnitSheet.Plan
