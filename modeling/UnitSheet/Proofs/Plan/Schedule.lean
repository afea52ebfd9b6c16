import Mathlib.Data.Fintype.EquivFin
import Mathlib.Data.Fintype.Sets
import Mathlib.Logic.Relation
import Mathlib.Order.WellFounded
import UnitSheet.Sheet.Plan

namespace UnitSheet.Plan

open Relation

variable {es : List Edge} {pending : List Nat} {u v : Nat}

/-- No slot waits for itself, directly or through others. -/
def Acyclic (es : List Edge) : Prop := ∀ v, ¬ TransGen (fun u v => (u, v) ∈ es) v v

theorem Acyclic.of_rank (rank : Nat → Nat) (h : ∀ e ∈ es, rank e.1 < rank e.2) : Acyclic es := by
  have hpath {u v : Nat} (hp : TransGen (fun u v => (u, v) ∈ es) u v) : rank u < rank v := by
    induction hp with
    | single he => exact h _ he
    | tail _ he ih => exact ih.trans (h _ he)
  exact fun v hv => Nat.lt_irrefl _ (hpath hv)

theorem schedule_some {fuel i : Nat} (h : (pending.find? fun i => es.all (·.2 ≠ i)) = some i) :
    schedule (fuel + 1) pending es =
      (i :: (schedule fuel (pending.erase i) (es.filter (·.1 ≠ i))).1,
        (schedule fuel (pending.erase i) (es.filter (·.1 ≠ i))).2) := by
  rw [schedule, h]

theorem schedule_none {fuel : Nat} (h : (pending.find? fun i => es.all (·.2 ≠ i)) = none) :
    schedule (fuel + 1) pending es = ([], pending) := by
  rw [schedule, h]

theorem schedule_perm (fuel : Nat) (pending : List Nat) (es : List Edge) :
    ((schedule fuel pending es).1 ++ (schedule fuel pending es).2).Perm pending := by
  induction fuel generalizing pending es with
  | zero => exact .refl _
  | succ fuel ih =>
    cases hi : pending.find? fun i => es.all (·.2 ≠ i) with
    | none =>
      rw [schedule_none hi]
      exact .refl _
    | some i =>
      rw [schedule_some hi]
      have hmem := List.mem_of_find?_eq_some hi
      exact ((ih (pending.erase i) (es.filter (·.1 ≠ i))).cons i).trans
        (List.perm_cons_erase hmem).symm

theorem schedule_stuck_sublist (fuel : Nat) (pending : List Nat) (es : List Edge) :
    (schedule fuel pending es).2.Sublist pending := by
  induction fuel generalizing pending es with
  | zero => exact .refl _
  | succ fuel ih =>
    cases hi : pending.find? fun i => es.all (·.2 ≠ i) with
    | none =>
      rw [schedule_none hi]
    | some i =>
      rw [schedule_some hi]
      exact (ih (pending.erase i) (es.filter (·.1 ≠ i))).trans List.erase_sublist

theorem schedule_edge (fuel : Nat) (hv : (u, v) ∈ es) {before after : List Nat}
    (ho : (schedule fuel pending es).1 = before ++ v :: after) : u ∈ before := by
  induction fuel generalizing pending es before with
  | zero => simp [schedule] at ho
  | succ fuel ih =>
    cases hi : pending.find? fun i => es.all (·.2 ≠ i) with
    | none => simp [schedule_none hi] at ho
    | some i =>
      rw [schedule_some hi] at ho
      have hready : ∀ e ∈ es, e.2 ≠ i := by
        simpa using List.find?_some hi
      cases before with
      | nil =>
        obtain rfl : i = v := (List.cons.inj ho).1
        exact (hready _ hv rfl).elim
      | cons b before =>
        obtain ⟨rfl, hrest⟩ := List.cons.inj ho
        by_cases hu : u = i
        · exact hu ▸ List.mem_cons_self
        · have hv' : (u, v) ∈ es.filter (·.1 ≠ i) := List.mem_filter.mpr ⟨hv, by simpa using hu⟩
          exact List.mem_cons_of_mem _ (ih hv' hrest)

theorem schedule_path (fuel : Nat) (hv : TransGen (fun u v => (u, v) ∈ es) u v)
    {before after : List Nat}
    (ho : (schedule fuel pending es).1 = before ++ v :: after) : u ∈ before := by
  induction hv generalizing before after with
  | single h => exact schedule_edge fuel h ho
  | tail _ h ih =>
    have hmid := schedule_edge fuel h ho
    obtain ⟨front, back, rfl⟩ := List.append_of_mem hmid
    exact List.mem_append_left _ (ih (by rw [ho, List.append_assoc]; rfl))

theorem schedule_stuck (fuel : Nat) (hf : pending.length ≤ fuel) (hn : pending.Nodup)
    (hs : ∀ e ∈ es, e.1 ∈ pending) (hv : v ∈ (schedule fuel pending es).2) :
    ∃ u ∈ (schedule fuel pending es).2, (u, v) ∈ es := by
  induction fuel generalizing pending es with
  | zero =>
    have : pending = [] := List.length_eq_zero_iff.mp (Nat.le_zero.mp hf)
    simp [schedule, this] at hv
  | succ fuel ih =>
    cases hi : pending.find? fun i => es.all (·.2 ≠ i) with
    | some i =>
      rw [schedule_some hi] at hv ⊢
      have hmem := List.mem_of_find?_eq_some hi
      have hlen : (pending.erase i).length ≤ fuel := by
        rw [List.length_erase_of_mem hmem]
        omega
      have hs' : ∀ e ∈ es.filter (·.1 ≠ i), e.1 ∈ pending.erase i := by
        intro e he
        obtain ⟨he, hne⟩ := List.mem_filter.mp he
        exact (List.mem_erase_of_ne (by simpa using hne)).mpr (hs e he)
      obtain ⟨u, hu, huv⟩ := ih hlen (hn.erase i) hs' hv
      exact ⟨u, hu, (List.mem_filter.mp huv).1⟩
    | none =>
      rw [schedule_none hi] at hv ⊢
      have hwait := List.find?_eq_none.mp hi v hv
      simp only [List.all_eq_true, decide_eq_true_eq, not_forall, not_not] at hwait
      obtain ⟨⟨u, w⟩, he, rfl⟩ := hwait
      exact ⟨u, hs _ he, he⟩

theorem Acyclic.exists_free (h : Acyclic es) {waiting : List Nat} (hne : waiting ≠ []) :
    ∃ v ∈ waiting, ∀ u ∈ waiting, (u, v) ∉ es := by
  let below (a b : {i // i ∈ waiting}) : Prop := TransGen (fun u v => (u, v) ∈ es) a b
  have : IsTrans _ below := ⟨fun _ _ _ => .trans⟩
  have : Std.Irrefl below := ⟨fun a => h a⟩
  have : Finite {i // i ∈ waiting} := inferInstance
  have hw : WellFounded below := Finite.wellFounded_of_trans_of_irrefl below
  obtain ⟨v, -, hv⟩ := hw.has_min Set.univ ⟨⟨_, List.head_mem hne⟩, trivial⟩
  exact ⟨v, v.2, fun u hu he => hv ⟨u, hu⟩ trivial (.single he)⟩

theorem Acyclic.schedule_stuck_nil (h : Acyclic es) (fuel : Nat) (hf : pending.length ≤ fuel)
    (hn : pending.Nodup) (hs : ∀ e ∈ es, e.1 ∈ pending) : (schedule fuel pending es).2 = [] := by
  by_contra hne
  obtain ⟨v, hv, hfree⟩ := h.exists_free hne
  obtain ⟨u, hu, he⟩ := schedule_stuck fuel hf hn hs hv
  exact hfree u hu he

/-- Where all edges point forward, the slots keep their order. -/
theorem schedule_forward (fuel : Nat) (hf : pending.length ≤ fuel) (hp : pending.Pairwise (· < ·))
    (hs : ∀ e ∈ es, e.1 ∈ pending) (hfwd : ∀ e ∈ es, e.1 < e.2) :
    schedule fuel pending es = (pending, []) := by
  induction pending generalizing fuel es with
  | nil => cases fuel <;> simp [schedule]
  | cons i rest ih =>
    obtain ⟨hi, hrest⟩ := List.pairwise_cons.mp hp
    cases fuel with
    | zero => simp at hf
    | succ fuel =>
      have hready : (es.all fun e => e.2 ≠ i) = true := by
        simp only [List.all_eq_true, decide_eq_true_eq]
        intro e he
        have hlt := hfwd e he
        rcases List.mem_cons.mp (hs e he) with h | h
        · omega
        · have := hi _ h
          omega
      have hs' : ∀ e ∈ es.filter (·.1 ≠ i), e.1 ∈ rest := by
        intro e he
        obtain ⟨he, hne⟩ := List.mem_filter.mp he
        exact (List.mem_cons.mp (hs e he)).resolve_left (by simpa using hne)
      have hlen : rest.length ≤ fuel := by simpa using hf
      have hfwd' : ∀ e ∈ es.filter (·.1 ≠ i), e.1 < e.2 :=
        fun e he => hfwd e (List.mem_filter.mp he).1
      rw [schedule_some (List.find?_cons_of_pos hready), List.erase_cons_head,
        ih fuel hlen hrest hs' hfwd']

end UnitSheet.Plan
