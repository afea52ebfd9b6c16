import UnitSheet.Proofs.Plan.Least
import UnitSheet.Proofs.Sheet.Batch

namespace UnitSheet

open Plan Relation

namespace Plan

variable {constants : Bindings} {slots : List SlotNames} {es : List Edge} {u v : Nat}

def OnCommonCycle (es : List Edge) (u v : Nat) : Prop :=
  TransGen (fun u v => (u, v) ∈ es) u v ∧ TransGen (fun u v => (u, v) ∈ es) v u

theorem BehindCycle.path (h : BehindCycle es u) (hp : TransGen (fun u v => (u, v) ∈ es) u v) :
    BehindCycle es v := by
  obtain ⟨c, hc, hcu⟩ := h
  exact ⟨c, hc, hcu.trans hp.to_reflTransGen⟩

theorem mem_ordered : u ∈ (ofSlots constants slots).ordered ↔
    u < slots.length ∧ ¬ BehindCycle (edges constants slots) u := by
  have hn := order_nodup constants slots
  rw [← @mem_order constants, ← mem_stuck, order, List.mem_append]
  constructor
  · intro hu
    exact ⟨.inl hu, fun hs => (List.nodup_append.mp hn).2.2 u hu u hs rfl⟩
  · rintro ⟨hu, hs⟩
    exact hu.resolve_right hs

theorem idxOf_lt_iff {front back : List Nat}
    (ho : (ofSlots constants slots).order = front ++ v :: back) :
    (ofSlots constants slots).order.idxOf u < (ofSlots constants slots).order.idxOf v ↔
    u ∈ front := by
  have hv : (front ++ v :: back).idxOf v = front.length := by
    rw [List.idxOf_append_of_notMem (not_mem_of_order ho).1, List.idxOf_cons_self, Nat.add_zero]
  rw [ho, hv]
  by_cases hu : u ∈ front
  · rw [List.idxOf_append_of_mem hu]
    exact iff_of_true (List.idxOf_lt_length_iff.mpr hu) hu
  · rw [List.idxOf_append_of_notMem hu]
    exact iff_of_false (Nat.not_lt.mpr (Nat.le_add_right _ _)) hu

/-- The order follows a path that leads forward in the input, or that starts where no cycle leads
to; it follows no other one. -/
theorem path_idxOf_lt_iff (hp : TransGen (fun u v => (u, v) ∈ edges constants slots) u v) :
    (ofSlots constants slots).order.idxOf u < (ofSlots constants slots).order.idxOf v ↔
      u < v ∨ ¬ BehindCycle (edges constants slots) u := by
  obtain ⟨hu, hv⟩ := path_lt hp
  have hmem : v ∈ (ofSlots constants slots).order := mem_order.mpr hv
  obtain ⟨front, back, ho⟩ := List.append_of_mem hmem
  rw [idxOf_lt_iff ho]
  by_cases hcycle : BehindCycle (edges constants slots) v
  · rw [mem_before_stuck (mem_stuck.mpr hcycle) ho, mem_ordered, mem_stuck]
    tauto
  · have hfree : ¬ BehindCycle (edges constants slots) u := fun h => hcycle (h.path hp)
    have hfront : u ∈ front := mem_before_ordered hp (mem_ordered.mpr ⟨hv, hcycle⟩) ho
    exact iff_of_true hfront (.inr hfree)

end Plan

namespace Sheet

/-- An edge between two slots of a batch is followed where it leads forward in the input, and
elsewhere if its first slot neither lies on a cycle nor behind one. So a reader runs behind the
definition that it is to see, unless that one stands behind it in the input and a cycle leads to
it. -/
theorem edge_idxOf_lt_iff (s : Sheet) (slots : List Slot) :
    (∀ u v, (u, v) ∈ edges s.constants (slots.map Slot.slotNames) →
      ((s.plan slots).order.idxOf u < (s.plan slots).order.idxOf v ↔
        u < v ∨ ¬ BehindCycle (edges s.constants (slots.map Slot.slotNames)) u)) ∧
    ∀ i d x, x ∈ reads (slots.map Slot.slotNames) i → s.constants.contains x = false →
      IsSource (slots.map Slot.slotNames) x i d →
      ((s.plan slots).order.idxOf d < (s.plan slots).order.idxOf i ↔
        d < i ∨ ¬ BehindCycle (edges s.constants (slots.map Slot.slotNames)) d) := by
  constructor
  · intro u v h
    exact path_idxOf_lt_iff (.single h)
  · intro i d x hx hc hd
    exact path_idxOf_lt_iff (.single (hd.edge hx hc))

def aroundCycle : List Item :=
  [{ value := "z=x" }, { value := "x=y+u" }, { value := "y=x" }, { value := "v=x+u" },
    { value := "u=2" }]

def aroundCycleSlots : List Slot :=
  [⟨{ value := "z=x" }, .ok (.assign "z" (.name "x"))⟩,
   ⟨{ value := "x=y+u" }, .ok (.assign "x" (.binary (.arithmetic .add) (.name "y") (.name "u")))⟩,
   ⟨{ value := "y=x" }, .ok (.assign "y" (.name "x"))⟩,
   ⟨{ value := "v=x+u" }, .ok (.assign "v" (.binary (.arithmetic .add) (.name "x") (.name "u")))⟩,
   ⟨{ value := "u=2" }, .ok (.assign "u" (.literal { value := 2, text := "2" }))⟩]

theorem slots_aroundCycle : Sheet.slots aroundCycle {} = (.ok aroundCycleSlots, {}) := rfl

theorem plan_aroundCycle : Sheet.plan {} aroundCycleSlots = ⟨[4], [0, 1, 2, 3]⟩ := rfl

theorem edges_aroundCycle : edges {} (aroundCycleSlots.map Slot.slotNames) =
    [(1, 0), (4, 1), (2, 1), (1, 2), (4, 3), (1, 3)] := rfl

/-- The reader before the cycle lies on none, and runs before the definition that it reads. -/
theorem aroundCycle_reader_first : Sheet.slots aroundCycle {} = (.ok aroundCycleSlots, {}) ∧
    (1, 0) ∈ edges {} (aroundCycleSlots.map Slot.slotNames) ∧
    ¬ OnCommonCycle (edges {} (aroundCycleSlots.map Slot.slotNames)) 1 0 ∧
    ¬ (Sheet.plan {} aroundCycleSlots).order.idxOf 1 <
      (Sheet.plan {} aroundCycleSlots).order.idxOf 0 := by
  rw [edges_aroundCycle, plan_aroundCycle]
  refine ⟨slots_aroundCycle, by decide, ?_, by decide⟩
  rintro ⟨-, hpath⟩
  obtain ⟨v, hv, -⟩ := TransGen.head'_iff.mp hpath
  simp at hv

/-- What the cycle waits for runs first, and so does the definition on it before the reader behind
it. -/
theorem aroundCycle_edges : let es := edges {} (aroundCycleSlots.map Slot.slotNames)
    let order := (Sheet.plan {} aroundCycleSlots).order
    ((4, 1) ∈ es ∧ (order.idxOf 4 < order.idxOf 1 ↔ 4 < 1 ∨ ¬ BehindCycle es 4)) ∧
    ((1, 3) ∈ es ∧ (order.idxOf 1 < order.idxOf 3 ↔ 1 < 3 ∨ ¬ BehindCycle es 1)) ∧
    IsSource (aroundCycleSlots.map Slot.slotNames) "x" 0 1 ∧
    (order.idxOf 1 < order.idxOf 0 ↔ 1 < 0 ∨ ¬ BehindCycle es 1) := by
  obtain ⟨hedge, hread⟩ := edge_idxOf_lt_iff {} aroundCycleSlots
  have hmem : (4, 1) ∈ edges {} (aroundCycleSlots.map Slot.slotNames) ∧
      (1, 3) ∈ edges {} (aroundCycleSlots.map Slot.slotNames) := by
    rw [edges_aroundCycle]
    decide
  have hsource : IsSource (aroundCycleSlots.map Slot.slotNames) "x" 0 1 :=
    .after rfl Nat.one_pos (fun j _ => Nat.not_lt_zero j) fun j _ hj => hj
  have hx : "x" ∈ reads (aroundCycleSlots.map Slot.slotNames) 0 := List.mem_singleton.mpr rfl
  exact ⟨⟨hmem.1, hedge 4 1 hmem.1⟩, ⟨hmem.2, hedge 1 3 hmem.2⟩, hsource,
    hread 0 1 "x" hx rfl hsource⟩

end Sheet

end UnitSheet
