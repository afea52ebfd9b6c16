import UnitSheet.Proofs.Plan.Order

namespace UnitSheet.Plan

open Relation

variable {constants : Bindings} {slots : List SlotNames} {x : String} {es : List Edge}
variable {pending l : List Nat} {fuel i j u v : Nat}

/-- In the order, the start of an edge stands before its end. -/
def Follows (es : List Edge) (l : List Nat) : Prop :=
  ∀ u v before after, (u, v) ∈ es → l = before ++ v :: after → u ∈ before

/-- The slot lies on a cycle or behind one. -/
def BehindCycle (es : List Edge) (v : Nat) : Prop :=
  ∃ c, TransGen (fun u v => (u, v) ∈ es) c c ∧ ReflTransGen (fun u v => (u, v) ∈ es) c v

/-- The first of two orders, compared slot by slot from the front, or the same order. -/
def Precedes (l l' : List Nat) : Prop := l = l' ∨ List.Lex (· < ·) l l'

theorem Precedes.nil (l : List Nat) : Precedes [] l := by
  cases l with
  | nil => exact .inl rfl
  | cons a l => exact .inr .nil

theorem Precedes.cons {l l' : List Nat} (h : Precedes l l') (i : Nat) :
    Precedes (i :: l) (i :: l') := by
  rcases h with rfl | h
  · exact .inl rfl
  · exact .inr (.cons h)

theorem acyclic_iff : Acyclic es ↔ ∀ v, ¬ BehindCycle es v := by
  constructor
  · intro h v ⟨c, hc, _⟩
    exact h c hc
  · intro h v hv
    exact h v ⟨v, hv, .refl⟩

theorem Follows.not_mem_head {a : Nat} {rest : List Nat} (h : Follows es (a :: rest)) :
    (u, a) ∉ es := fun he =>
  List.not_mem_nil (h u a [] rest he rfl)

theorem Follows.tail {a : Nat} {rest : List Nat} (h : Follows es (a :: rest)) :
    Follows (es.filter (·.1 ≠ a)) rest := by
  intro u v before after he hrest
  obtain ⟨he, hne⟩ := List.mem_filter.mp he
  have hu := h u v (a :: before) after he (congrArg (a :: ·) hrest)
  exact (List.mem_cons.mp hu).resolve_left (by simpa using hne)

theorem find?_le {p : Nat → Bool} {a : Nat} (hl : pending.Pairwise (· < ·))
    (hi : pending.find? p = some i) (ha : a ∈ pending) (hp : p a = true) : i ≤ a := by
  obtain ⟨-, front, back, rfl, hfront⟩ := List.find?_eq_some_iff_append.mp hi
  rcases List.mem_append.mp ha with ha | ha
  · have hnot := hfront a ha
    rw [hp] at hnot
    cases hnot
  · rcases List.mem_cons.mp ha with rfl | ha
    · exact Nat.le_refl a
    · have hback := (List.pairwise_append.mp hl).2.1
      exact Nat.le_of_lt ((List.pairwise_cons.mp hback).1 a ha)

/-- The schedule precedes every order of the pending slots that follows the edges. -/
theorem schedule_precedes (fuel : Nat) (hp : pending.Pairwise (· < ·)) (hl : l.Perm pending)
    (h : Follows es l) : Precedes (schedule fuel pending es).1 l := by
  induction fuel generalizing pending es l with
  | zero => exact .nil l
  | succ fuel ih =>
    cases hi : pending.find? fun i => es.all (·.2 ≠ i) with
    | none =>
      rw [schedule_none hi]
      exact .nil l
    | some i =>
      rw [schedule_some hi]
      have hmem := List.mem_of_find?_eq_some hi
      cases l with
      | nil =>
        rw [List.nil_perm.mp hl] at hmem
        exact (List.not_mem_nil hmem).elim
      | cons a rest =>
        have hready : (es.all fun e => e.2 ≠ a) = true := by
          simp only [List.all_eq_true, decide_eq_true_eq]
          rintro ⟨u, v⟩ he rfl
          exact h.not_mem_head he
        have hia : i ≤ a := find?_le hp hi (hl.subset List.mem_cons_self) hready
        rcases Nat.lt_or_eq_of_le hia with hlt | rfl
        · exact .inr (.rel hlt)
        · have hrest : rest.Perm (pending.erase i) :=
            (hl.trans (List.perm_cons_erase hmem)).cons_inv
          exact (ih (hp.sublist List.erase_sublist) hrest h.tail).cons i

theorem behindCycle_of_stuck (hf : pending.length ≤ fuel) (hn : pending.Nodup)
    (hs : ∀ e ∈ es, e.1 ∈ pending) (hi : i ∈ (schedule fuel pending es).2) : BehindCycle es i := by
  classical
  by_contra hcycle
  -- the stuck slots that lead to this one, and the edges between them
  let leading := (schedule fuel pending es).2.filter fun v =>
    ReflTransGen (fun u v => (u, v) ∈ es) v i
  let between := es.filter fun e => e.1 ∈ leading
  have hmem (v : Nat) : v ∈ leading ↔ v ∈ (schedule fuel pending es).2 ∧
      ReflTransGen (fun u v => (u, v) ∈ es) v i := by
    rw [List.mem_filter, decide_eq_true_eq]
  have hbetween (u v : Nat) (he : (u, v) ∈ between) : (u, v) ∈ es := (List.mem_filter.mp he).1
  have hacyclic : Acyclic between := by
    intro c hc
    obtain ⟨d, hd, -⟩ := TransGen.head'_iff.mp hc
    have hlead : c ∈ leading := by simpa using (List.mem_filter.mp hd).2
    exact hcycle ⟨c, TransGen.mono hbetween _ _ hc, ((hmem c).mp hlead).2⟩
  have hleading : i ∈ leading := (hmem i).mpr ⟨hi, .refl⟩
  obtain ⟨v, hv, hfree⟩ := hacyclic.exists_free (List.ne_nil_of_mem hleading)
  obtain ⟨hstuck, hpath⟩ := (hmem v).mp hv
  obtain ⟨u, hu, he⟩ := schedule_stuck fuel hf hn hs hstuck
  have hlead : u ∈ leading := (hmem u).mpr ⟨hu, .head he hpath⟩
  exact hfree u hlead (List.mem_filter.mpr ⟨he, by simpa using hlead⟩)

theorem not_mem_ordered (hn : (schedule fuel pending es).1.Nodup) (h : BehindCycle es i) :
    i ∉ (schedule fuel pending es).1 := by
  intro hi
  obtain ⟨c, hc, hci⟩ := h
  obtain ⟨before, after, ho⟩ := List.append_of_mem hi
  have hbefore : c ∈ before := schedule_path fuel (hc.trans_left hci) ho
  obtain ⟨front, back, rfl⟩ := List.append_of_mem hbefore
  rw [List.append_assoc, List.cons_append] at ho
  have hfront := schedule_path fuel hc ho
  rw [ho, List.nodup_append] at hn
  exact hn.2.2 c hfront c List.mem_cons_self rfl

theorem edge_ne (h : (u, v) ∈ edges constants slots) : u ≠ v := by
  rintro rfl
  rcases mem_edges.mp h with h | h | ⟨i, x, -, -, h⟩
  · obtain ⟨x, h⟩ := mem_chainEdges.mp h
    exact Nat.lt_irrefl u (consecutive_lt (definitions_sorted slots x) h)
  · exact Nat.lt_irrefl u (mem_answerEdges.mp h).2.2
  · obtain ⟨d, hd, ⟨rfl, rfl⟩ | ⟨rfl, -, hne, -⟩⟩ := mem_readEdges.mp h
    · exact hd.ne rfl
    · exact hne rfl

/-- The slots that wait for a cycle come last, those that lie on one or behind one. -/
theorem mem_stuck : i ∈ (ofSlots constants slots).stuck ↔
    BehindCycle (edges constants slots) i := by
  constructor
  · exact behindCycle_of_stuck (by rw [List.length_range]) List.nodup_range
      (edges_from_pending constants slots)
  · intro h
    have hi : i < slots.length := by
      obtain ⟨c, hc, hci⟩ := h
      exact (path_lt (hc.trans_left hci)).2
    have hn := order_nodup constants slots
    rcases List.mem_append.mp (mem_order.mpr hi) with hordered | hstuck
    · exact (not_mem_ordered (List.nodup_append.mp hn).1 h hordered).elim
    · exact hstuck

example : ofSlots {} [⟨some "a", ["b"]⟩, ⟨some "b", ["a"]⟩, ⟨some "c", []⟩, ⟨none, ["a"]⟩] =
    ⟨[2], [0, 1, 3]⟩ := by
  rfl

theorem stuck_eq_nil_iff :
    (ofSlots constants slots).stuck = [] ↔ Acyclic (edges constants slots) := by
  rw [acyclic_iff, List.eq_nil_iff_forall_not_mem]
  exact forall_congr' fun i => not_congr mem_stuck

theorem Acyclic.follows (h : Acyclic (edges constants slots)) :
    Follows (edges constants slots) (ofSlots constants slots).order :=
  fun _ _ _ _ he ho => h.path (.single he) ho

theorem Acyclic.order_precedes (h : Acyclic (edges constants slots))
    (hl : l.Perm (List.range slots.length))
    (hf : Follows (edges constants slots) l) : Precedes (ofSlots constants slots).order l := by
  rw [h.order]
  exact schedule_precedes _ List.pairwise_lt_range hl hf

theorem order_of_forward (h : ∀ e ∈ edges constants slots, e.1 < e.2) :
    (ofSlots constants slots).order = List.range slots.length := by
  have hs := schedule_forward slots.length (by rw [List.length_range]) List.pairwise_lt_range
    (edges_from_pending constants slots) h
  rw [order, ofSlots, hs, List.append_nil]

end UnitSheet.Plan
