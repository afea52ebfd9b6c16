import UnitSheet.Proofs.Plan.Least
import UnitSheet.Proofs.Sheet.Journal

namespace UnitSheet.Sheet

open Update UnitSheet.Computation Plan

variable {s : Sheet} {slots : List Slot} {ε α : Type}

def cycle? : Event → Option (List Nat)
  | .cycle stuck => some stuck
  | _ => none

def cycles (s : Sheet) : List (List Nat) := s.journal.filterMap cycle?

/-- Work that does not warn about a cycle. -/
def Unwarned (m : Update ε α) : Prop := ∀ s, (m s).2.cycles = s.cycles

theorem cycles_record (e : Event) (s : Sheet) :
    { s with journal := s.journal ++ [e] }.cycles = s.cycles ++ (cycle? e).toList := by
  rw [cycles, cycles, List.filterMap_append, List.filterMap_cons, List.filterMap_nil]
  cases cycle? e <;> rfl

theorem unwarned_settleNext (slots : List Slot) (previous : Option Value) (answer : Bool)
    (results : List Result) (i : Nat) : Unwarned (settleNext slots previous answer results i) := by
  have htells : Tells (cycle? · = none) (settleNext slots previous answer results i) :=
    tells_settleNext (fun _ ⟨_, _⟩ => rfl) (fun _ => rfl) (fun _ => rfl)
      slots previous answer results
  exact fun s => (htells s).filterMap_eq fun _ he => he

theorem noteCycle_cycles (stuck : List Nat) (s : Sheet) :
    (noteCycle stuck s).cycles = s.cycles ++ if stuck = [] then [] else [stuck] := by
  rw [noteCycle]
  split
  · rw [List.append_nil]
  · exact cycles_record _ s

/-- A batch warns once of the slots that wait for a cycle, and not at all where there are none. -/
theorem evaluateSlots_cycles (slots : List Slot) (s : Sheet) : (evaluateSlots slots s).2.cycles =
    s.cycles ++ if (s.plan slots).stuck = [] then [] else [(s.plan slots).stuck] := by
  have hsettled : (progress slots s (s.plan slots).order).2.cycles =
      (noteCycle (s.plan slots).stuck s).cycles :=
    foldlM_invariant (I := fun t : Sheet => t.cycles = (noteCycle (s.plan slots).stuck s).cycles)
      rfl fun _ i results t _ _ ht => (unwarned_settleNext slots _ _ results i t).trans ht
  rw [← noteCycle_cycles, evaluateSlots_eq]
  refine bind_invariant (I := fun t : Sheet => t.cycles = (noteCycle (s.plan slots).stuck s).cycles)
    hsettled ?_
  intro results t _ ht
  cases definesAnswer slots <;> exact ht

/-- The order in which a batch is evaluated, by the edges between its slots. -/
structure Orders (s : Sheet) (slots : List Slot) (es : List Edge) (order : List Nat) : Prop where
  perm : order.Perm (List.range slots.length)
  edge_ne : ∀ i, (i, i) ∉ es
  /-- Definitions of one name keep their order. -/
  definitions : ∀ x i j before after, Defines (slots.map Slot.slotNames) i x →
    Defines (slots.map Slot.slotNames) j x → i < j → order = before ++ j :: after → i ∈ before
  least : Acyclic es → Follows es order ∧
    (∀ l, l.Perm (List.range slots.length) → Follows es l → Precedes order l) ∧
    (evaluateSlots slots s).2.cycles = s.cycles
  forward : (∀ e ∈ es, e.1 < e.2) → order = List.range slots.length
  /-- Slots on a cycle and behind one come last, in input order, with a warning. -/
  cyclic : ¬ Acyclic es → ∃ ordered stuck, order = ordered ++ stuck ∧ stuck.Pairwise (· < ·) ∧
    (∀ i, i ∈ stuck ↔ BehindCycle es i) ∧ (evaluateSlots slots s).2.cycles = s.cycles ++ [stuck]

theorem plan_orders (s : Sheet) (slots : List Slot) :
    Orders s slots (edges s.constants (slots.map Slot.slotNames)) (s.plan slots).order where
  perm := by
    have hperm := order_perm s.constants (slots.map Slot.slotNames)
    rwa [List.length_map] at hperm
  edge_ne i h := edge_ne h rfl
  definitions x i j before after hi hj hlt ho := before_of_path (definitions_path hi hj hlt) hlt ho
  least h := by
    refine ⟨h.follows, fun l hl hf => h.order_precedes ?_ hf, ?_⟩
    · rwa [List.length_map]
    · rw [evaluateSlots_cycles, plan, h.stuck, if_pos rfl, List.append_nil]
  forward h := by
    rw [plan, order_of_forward h, List.length_map]
  cyclic h := by
    refine ⟨_, _, rfl, stuck_sorted _ _, fun i => mem_stuck, ?_⟩
    rw [evaluateSlots_cycles, plan, if_neg (fun hnil => h (stuck_eq_nil_iff.mp hnil))]

end UnitSheet.Sheet
