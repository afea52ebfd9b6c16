import UnitSheet.Proofs.Plan.Order

namespace UnitSheet.Plan

variable {constants : Bindings} {slots : List SlotNames} {es es' : List Edge} {pending : List Nat}
variable {x : String} {p i j d u v : Nat}

/-- The index of a slot after an insertion at `p`. -/
def shift (p i : Nat) : Nat := if i < p then i else i + 1

theorem shift_of_lt (h : i < p) : shift p i = i := if_pos h

theorem shift_of_le (h : p ≤ i) : shift p i = i + 1 := if_neg (Nat.not_lt.mpr h)

theorem shift_ne (p i : Nat) : shift p i ≠ p := by
  rw [shift]
  split <;> omega

theorem shift_lt_shift : shift p i < shift p j ↔ i < j := by
  rw [shift, shift]
  split <;> split <;> omega

theorem shift_le_shift : shift p i ≤ shift p j ↔ i ≤ j := by
  rw [← Nat.not_lt, shift_lt_shift, Nat.not_lt]

theorem shift_injective (p : Nat) : Function.Injective (shift p) := fun _ _ h =>
  Nat.le_antisymm (shift_le_shift.mp (Nat.le_of_eq h)) (shift_le_shift.mp (Nat.le_of_eq h.symm))

theorem exists_shift (h : i ≠ p) : ∃ j, i = shift p j := by
  by_cases hlt : i < p
  · exact ⟨i, (shift_of_lt hlt).symm⟩
  · exact ⟨i - 1, by rw [shift_of_le] <;> omega⟩

theorem getElem?_insertIdx_shift {α : Type} (l : List α) (a : α) (p i : Nat) :
    (l.insertIdx p a)[shift p i]? = l[i]? := by
  rw [List.getElem?_insertIdx, shift]
  by_cases h : i < p
  · rw [if_pos h, if_pos h]
  · rw [if_neg h, if_neg (by omega), if_neg (by omega), Nat.add_sub_cancel]

theorem filterMap_take_insertIdx {α β : Type} {f : α → Option β} {a : α} (ha : f a = none)
    (l : List α)
    (p i : Nat) : ((l.insertIdx p a).take (shift p i)).filterMap f = (l.take i).filterMap f := by
  induction p generalizing l i with
  | zero =>
    rw [List.insertIdx_zero, shift_of_le (Nat.zero_le i), List.take_succ_cons,
      List.filterMap_cons_none ha]
  | succ p ih =>
    cases l with
    | nil => simp
    | cons b l =>
      cases i with
      | zero => rw [shift_of_lt (Nat.succ_pos p), List.take_zero, List.take_zero]
      | succ i =>
        have hshift : shift (p + 1) (i + 1) = shift p i + 1 := by
          rw [shift, shift]
          split <;> split <;> omega
        rw [List.insertIdx_succ_cons, hshift, List.take_succ_cons, List.take_succ_cons,
          List.filterMap_cons, List.filterMap_cons, ih]

theorem filterMap_insertIdx {α β : Type} {f : α → Option β} {a : α} (ha : f a = none) {l : List α}
    (hp : p ≤ l.length) : (l.insertIdx p a).filterMap f = l.filterMap f := by
  have hlen : (l.insertIdx p a).length = l.length + 1 := List.length_insertIdx_of_le_length hp a
  have htake := filterMap_take_insertIdx ha l p l.length
  rwa [shift_of_le hp, ← hlen, List.take_length, List.take_length] at htake

theorem eq_of_getElem?_insertIdx_self {α : Type} {l : List α} {a b : α}
    (h : (l.insertIdx p a)[p]? = some b) : b = a := by
  rw [List.getElem?_insertIdx_self] at h
  split at h
  · exact (Option.some.inj h).symm
  · cases h

theorem any_insertIdx {α : Type} {q : α → Bool} {a : α} (ha : q a = false) (l : List α) (p : Nat) :
    (l.insertIdx p a).any q = l.any q := by
  rw [Bool.eq_iff_iff, List.any_eq_true, List.any_eq_true]
  constructor
  · intro ⟨b, hb, hq⟩
    rcases List.eq_or_mem_of_mem_insertIdx hb with rfl | hb
    · rw [ha] at hq
      cases hq
    · exact ⟨b, hb, hq⟩
  · intro ⟨b, hb, hq⟩
    exact ⟨b, List.subset_insertIdx l p a hb, hq⟩

theorem any_eraseIdx_insertIdx {α : Type} {q : α → Bool} {a : α} (ha : q a = false) (l : List α)
    (p i : Nat) : ((l.insertIdx p a).eraseIdx (shift p i)).any q = (l.eraseIdx i).any q := by
  rw [Bool.eq_iff_iff, List.any_eq_true, List.any_eq_true]
  simp only [List.mem_eraseIdx_iff_getElem?]
  constructor
  · intro ⟨b, ⟨j, hj, hb⟩, hq⟩
    have hjp : j ≠ p := by
      rintro rfl
      rw [eq_of_getElem?_insertIdx_self hb, ha] at hq
      cases hq
    obtain ⟨j, rfl⟩ := exists_shift hjp
    rw [getElem?_insertIdx_shift] at hb
    exact ⟨b, ⟨j, fun hji => hj (congrArg (shift p) hji), hb⟩, hq⟩
  · intro ⟨b, ⟨j, hj, hb⟩, hq⟩
    refine ⟨b, ⟨shift p j, (shift_injective p).ne hj, ?_⟩, hq⟩
    rw [getElem?_insertIdx_shift, hb]

theorem ext_shift {α : Type} {l l' : List α} (p : Nat) (h : ∀ i, l[shift p i]? = l'[shift p i]?)
    (hp : l[p]? = l'[p]?) : l = l' := by
  apply List.ext_getElem?
  intro i
  by_cases hi : i = p
  · exact hi ▸ hp
  · obtain ⟨j, rfl⟩ := exists_shift hi
    exact h j

def idle : SlotNames := ⟨none, []⟩

theorem defines_shift : Defines (slots.insertIdx p idle) (shift p i) x ↔ Defines slots i x := by
  rw [Defines, Defines, getElem?_insertIdx_shift]

theorem not_defines_idle (x : String) : ¬ Defines (slots.insertIdx p idle) p x := by
  intro h
  obtain ⟨slot, hslot, ht⟩ := Option.bind_eq_some_iff.mp h
  rw [eq_of_getElem?_insertIdx_self hslot] at ht
  cases ht

theorem reads_shift : reads (slots.insertIdx p idle) (shift p i) = reads slots i := by
  rw [reads, reads, getElem?_insertIdx_shift]

theorem not_mem_reads_idle (x : String) : x ∉ reads (slots.insertIdx p idle) p := by
  rw [reads]
  cases h : (slots.insertIdx p idle)[p]? with
  | none => simp
  | some slot => simp [eq_of_getElem?_insertIdx_self h, idle]

theorem Defines.exists_shift (h : Defines (slots.insertIdx p idle) i x) :
    ∃ j, i = shift p j ∧ Defines slots j x := by
  have hi : i ≠ p := by
    rintro rfl
    exact not_defines_idle x h
  obtain ⟨j, rfl⟩ := Plan.exists_shift hi
  exact ⟨j, rfl, defines_shift.mp h⟩

theorem forall_defines_shift {P : Nat → Prop} :
    (∀ i, Defines (slots.insertIdx p idle) i x → P i) ↔ ∀ i, Defines slots i x → P (shift p i) := by
  constructor
  · exact fun h i hi => h _ (defines_shift.mpr hi)
  · intro h i hi
    obtain ⟨j, rfl, hj⟩ := hi.exists_shift
    exact h j hj

theorem isSource_shift :
    IsSource (slots.insertIdx p idle) x (shift p i) (shift p d) ↔ IsSource slots x i d := by
  constructor
  · intro h
    cases h with
    | before hd hlt hnearest =>
      rw [forall_defines_shift] at hnearest
      simp only [shift_lt_shift, shift_le_shift] at hlt hnearest
      exact .before (defines_shift.mp hd) hlt hnearest
    | after hd hlt hnone hfirst =>
      rw [forall_defines_shift] at hnone hfirst
      simp only [shift_lt_shift, shift_le_shift] at hlt hnone hfirst
      exact .after (defines_shift.mp hd) hlt hnone hfirst
  · intro h
    cases h with
    | before hd hlt hnearest =>
      apply IsSource.before (defines_shift.mpr hd) (shift_lt_shift.mpr hlt)
      rw [forall_defines_shift]
      simp only [shift_lt_shift, shift_le_shift]
      exact hnearest
    | after hd hlt hnone hfirst =>
      apply IsSource.after (defines_shift.mpr hd) (shift_lt_shift.mpr hlt)
      · rw [forall_defines_shift]
        simp only [shift_lt_shift]
        exact hnone
      · rw [forall_defines_shift]
        simp only [shift_lt_shift, shift_le_shift]
        exact hfirst

theorem definitions_insertIdx (slots : List SlotNames) (p : Nat) (x : String) :
    definitions (slots.insertIdx p idle) x = (definitions slots x).map (shift p) := by
  have hsorted : ((definitions slots x).map (shift p)).Pairwise (· < ·) :=
    List.pairwise_map.mpr ((definitions_sorted slots x).imp shift_lt_shift.mpr)
  have hsorted' := definitions_sorted (slots.insertIdx p idle) x
  apply List.Perm.eq_of_pairwise (fun a b _ _ hab hba => absurd hab (Nat.lt_asymm hba)) hsorted'
    hsorted
  rw [List.perm_ext_iff_of_nodup (hsorted'.imp Nat.ne_of_lt) (hsorted.imp Nat.ne_of_lt)]
  intro i
  rw [mem_definitions, List.mem_map]
  constructor
  · intro h
    obtain ⟨j, rfl, hj⟩ := h.exists_shift
    exact ⟨j, mem_definitions.mpr hj, rfl⟩
  · rintro ⟨j, hj, rfl⟩
    exact defines_shift.mpr (mem_definitions.mp hj)

theorem consecutive_map (f : Nat → Nat) (l : List Nat) :
    consecutive (l.map f) = (consecutive l).map (Prod.map f f) := by
  induction l with
  | nil => rfl
  | cons a l ih =>
    cases l with
    | nil => rfl
    | cons b l =>
      rw [List.map_cons, List.map_cons, consecutive, consecutive, List.map_cons, ← List.map_cons,
        ih]
      rfl

theorem mem_chainEdges_shift :
    (shift p u, shift p v) ∈ chainEdges (slots.insertIdx p idle) ↔ (u, v) ∈ chainEdges slots := by
  have hinj : Function.Injective (Prod.map (shift p) (shift p)) :=
    (shift_injective p).prodMap (shift_injective p)
  rw [mem_chainEdges, mem_chainEdges]
  apply exists_congr
  intro x
  rw [definitions_insertIdx, consecutive_map]
  exact List.mem_map_of_injective hinj (a := (u, v))

theorem mem_answerEdges_shift :
    (shift p u, shift p v) ∈ answerEdges (slots.insertIdx p idle) ↔ (u, v) ∈ answerEdges slots := by
  rw [mem_answerEdges, mem_answerEdges, reads_shift, shift_lt_shift]
  exact and_congr_left fun _ => forall_defines_shift (P := fun _ => False)

theorem mem_readEdges_shift :
    (shift p u, shift p v) ∈ readEdges (slots.insertIdx p idle) (shift p i) x ↔
      (u, v) ∈ readEdges slots i x := by
  rw [mem_readEdges, mem_readEdges]
  constructor
  · intro ⟨d, hd, h⟩
    obtain ⟨d, rfl, -⟩ := hd.defines.exists_shift
    simp only [shift_lt_shift, (shift_injective p).eq_iff, (shift_injective p).ne_iff,
      defines_shift] at h
    exact ⟨d, isSource_shift.mp hd, h⟩
  · intro ⟨d, hd, h⟩
    refine ⟨shift p d, isSource_shift.mpr hd, ?_⟩
    simp only [shift_lt_shift, (shift_injective p).eq_iff, (shift_injective p).ne_iff,
      defines_shift]
    exact h

/-- Edges with a node `p` inserted: those between the other nodes are the same, and the ones of `p`
lead forward. -/
structure Inserted (p : Nat) (es es' : List Edge) : Prop where
  shift_iff : ∀ u v, (shift p u, shift p v) ∈ es' ↔ (u, v) ∈ es
  not_into : ∀ e ∈ es', e.2 ≠ p
  forward : ∀ e ∈ es', e.1 = p → p < e.2

theorem inserted_edges (constants : Bindings) (slots : List SlotNames) (p : Nat) :
    Inserted p (edges constants slots) (edges constants (slots.insertIdx p idle)) := by
  have hdefines {i : Nat} {x : String} (h : Defines (slots.insertIdx p idle) i x) : i ≠ p := by
    obtain ⟨j, rfl, -⟩ := h.exists_shift
    exact shift_ne p j
  have hreads {i : Nat} {x : String} (h : x ∈ reads (slots.insertIdx p idle) i) : i ≠ p := by
    rintro rfl
    exact not_mem_reads_idle x h
  -- Only the last answer leads from an idle slot, and to readers behind it.
  have hends {u v : Nat} (h : (u, v) ∈ edges constants (slots.insertIdx p idle)) :
      v ≠ p ∧ (u = p → p < v) := by
    rcases mem_edges.mp h with h | h | ⟨i, x, hx, -, h⟩
    · obtain ⟨x, h⟩ := mem_chainEdges.mp h
      obtain ⟨hu, hv⟩ := consecutive_mem h
      exact ⟨hdefines (mem_definitions.mp hv), fun hp => (hdefines (mem_definitions.mp hu) hp).elim⟩
    · obtain ⟨-, hread, hlt⟩ := mem_answerEdges.mp h
      exact ⟨hreads hread, fun hp => hp ▸ hlt⟩
    · obtain ⟨d, hd, ⟨rfl, rfl⟩ | ⟨rfl, hv, -, -⟩⟩ := mem_readEdges.mp h
      · exact ⟨hreads hx, fun hp => (hdefines hd.defines hp).elim⟩
      · exact ⟨hdefines hv, fun hp => (hreads hx hp).elim⟩
  refine ⟨fun u v => ?_, fun e he => (hends he).1, fun e he => (hends he).2⟩
  rw [mem_edges, mem_edges, mem_chainEdges_shift, mem_answerEdges_shift]
  apply or_congr_right
  apply or_congr_right
  constructor
  · intro ⟨i, x, hx, hc, h⟩
    obtain ⟨i, rfl⟩ := exists_shift (hreads hx)
    rw [reads_shift] at hx
    exact ⟨i, x, hx, hc, mem_readEdges_shift.mp h⟩
  · intro ⟨i, x, hx, hc, h⟩
    rw [← reads_shift] at hx
    exact ⟨shift p i, x, hx, hc, mem_readEdges_shift.mpr h⟩

theorem Inserted.filter (h : Inserted p es es') (i : Nat) :
    Inserted p (es.filter (·.1 ≠ i)) (es'.filter (·.1 ≠ shift p i)) where
  shift_iff u v := by
    simp only [List.mem_filter, h.shift_iff, decide_eq_true_eq, (shift_injective p).ne_iff]
  not_into e he := h.not_into e (List.mem_filter.mp he).1
  forward e he := h.forward e (List.mem_filter.mp he).1

theorem Inserted.take (h : Inserted p es es') : Inserted p es (es'.filter (·.1 ≠ p)) where
  shift_iff u v := by
    simp only [List.mem_filter, h.shift_iff, decide_eq_true_eq, shift_ne, ne_eq, not_false_eq_true,
      and_true]
  not_into e he := h.not_into e (List.mem_filter.mp he).1
  forward e he := h.forward e (List.mem_filter.mp he).1

theorem Inserted.ready_iff (h : Inserted p es es') (hi : i < p ∨ ∀ e ∈ es', e.1 ≠ p) :
    (es'.all (·.2 ≠ shift p i)) = es.all (·.2 ≠ i) := by
  rw [Bool.eq_iff_iff, List.all_eq_true, List.all_eq_true]
  simp only [decide_eq_true_eq]
  constructor
  · intro hall e he hei
    exact hall _ ((h.shift_iff e.1 e.2).mpr he) (congrArg (shift p) hei)
  · intro hall e he hei
    obtain ⟨u, v⟩ := e
    dsimp only at hei
    subst hei
    by_cases hu : u = p
    · rcases hi with hi | hi
      · have hlt := h.forward _ he hu
        rw [shift_of_lt hi] at hlt
        exact absurd hlt (Nat.lt_asymm hi)
      · exact hi _ he hu
    · obtain ⟨w, rfl⟩ := exists_shift hu
      exact hall _ ((h.shift_iff w i).mp he) rfl

theorem Inserted.find?_map (h : Inserted p es es') (l : List Nat)
    (hl : ∀ i ∈ l, i < p ∨ ∀ e ∈ es', e.1 ≠ p) :
    ((l.map (shift p)).find? fun i => es'.all (·.2 ≠ i)) =
      (l.find? fun i => es.all (·.2 ≠ i)).map (shift p) := by
  induction l with
  | nil => rfl
  | cons i l ih =>
    have hready := h.ready_iff (hl i List.mem_cons_self)
    have hrest := ih fun j hj => hl j (List.mem_cons_of_mem i hj)
    rw [List.map_cons, List.find?_cons, List.find?_cons, hready, hrest]
    split <;> rfl

theorem Inserted.schedule_map (h : Inserted p es es') (hp : ∀ e ∈ es', e.1 ≠ p) (fuel : Nat)
    (pending : List Nat) :
    schedule fuel (pending.map (shift p)) es' =
      ((schedule fuel pending es).1.map (shift p), (schedule fuel pending es).2.map (shift p)) := by
  induction fuel generalizing pending es es' with
  | zero => rfl
  | succ fuel ih =>
    have hfind := h.find?_map pending fun _ _ => .inr hp
    cases hi : pending.find? fun i => es.all (·.2 ≠ i) with
    | none =>
      rw [hi] at hfind
      rw [schedule_none hi, schedule_none hfind]
      rfl
    | some i =>
      rw [hi] at hfind
      have hp' : ∀ e ∈ es'.filter (·.1 ≠ shift p i), e.1 ≠ p :=
        fun e he => hp e (List.mem_filter.mp he).1
      rw [schedule_some hi, schedule_some hfind, ← List.map_erase (shift_injective p),
        ih (h.filter i) hp']
      rfl

theorem Inserted.schedule_take (h : Inserted p es es') (fuel : Nat) (front back : List Nat)
    (hfront : ∀ i ∈ front, i < p) (hnone : (front.find? fun i => es.all (·.2 ≠ i)) = none) :
    schedule (fuel + 1) (front.map (shift p) ++ p :: back.map (shift p)) es' =
      (p :: (schedule fuel (front ++ back) es).1.map (shift p),
        (schedule fuel (front ++ back) es).2.map (shift p)) := by
  have hfind := h.find?_map front fun i hi => .inl (hfront i hi)
  have hready : es'.all (·.2 ≠ p) = true := by
    simpa using h.not_into
  have hfirst : ((front.map (shift p) ++ p :: back.map (shift p)).find? fun i => es'.all (·.2 ≠ i))
      = some p := by
    rw [List.find?_append, hfind, hnone, List.find?_cons, hready]
    rfl
  have hp : p ∉ front.map (shift p) := by
    intro hp
    obtain ⟨i, -, hi⟩ := List.mem_map.mp hp
    exact shift_ne p i hi
  have htaken : ∀ e ∈ es'.filter (·.1 ≠ p), e.1 ≠ p := fun e he => by
    simpa using (List.mem_filter.mp he).2
  have hrest := h.take.schedule_map htaken fuel (front ++ back)
  rw [schedule_some hfirst, List.erase_append_right _ hp, List.erase_cons_head, ← List.map_append,
    hrest]

/-- The others keep their order around the inserted slot. -/
theorem Inserted.schedule_insert (h : Inserted p es es') (fuel : Nat) (front back : List Nat)
    (hfront : ∀ i ∈ front, i < p) (hf : (front ++ back).length ≤ fuel) :
    ∃ before after, schedule (fuel + 1) (front.map (shift p) ++ p :: back.map (shift p)) es' =
        (before ++ p :: after, (schedule fuel (front ++ back) es).2.map (shift p)) ∧
      before ++ after = (schedule fuel (front ++ back) es).1.map (shift p) := by
  induction fuel generalizing front es es' with
  | zero =>
    have hnil := List.length_eq_zero_iff.mp (Nat.le_zero.mp hf)
    obtain ⟨rfl, rfl⟩ := List.append_eq_nil_iff.mp hnil
    exact ⟨[], [], h.schedule_take 0 [] [] hfront rfl, rfl⟩
  | succ fuel ih =>
    cases hi : front.find? fun i => es.all (·.2 ≠ i) with
    | none => exact ⟨[], _, h.schedule_take (fuel + 1) front back hfront hi, rfl⟩
    | some i =>
      have hmem := List.mem_of_find?_eq_some hi
      have hfirst : ((front ++ back).find? fun i => es.all (·.2 ≠ i)) = some i := by
        rw [List.find?_append, hi]
        rfl
      have hfirst' : ((front.map (shift p) ++ p :: back.map (shift p)).find?
          fun i => es'.all (·.2 ≠ i)) = some (shift p i) := by
        rw [List.find?_append, h.find?_map front fun i hi => .inl (hfront i hi), hi]
        rfl
      have hlen : (front.erase i ++ back).length ≤ fuel := by
        rw [List.length_append, List.length_erase_of_mem hmem]
        rw [List.length_append] at hf
        have := List.length_pos_of_mem hmem
        omega
      obtain ⟨before, after, hsched, horder⟩ := ih (h.filter i) (front.erase i)
        (fun j hj => hfront j (List.mem_of_mem_erase hj)) hlen
      refine ⟨shift p i :: before, after, ?_, ?_⟩
      · rw [schedule_some hfirst', List.erase_append_left _ (List.mem_map_of_mem hmem),
          ← List.map_erase (shift_injective p), hsched, schedule_some hfirst,
          List.erase_append_left _ hmem]
        rfl
      · rw [schedule_some hfirst, List.erase_append_left _ hmem, List.cons_append, horder]
        rfl

theorem range_insert (hp : p ≤ slots.length) :
    ∃ front back, List.range slots.length = front ++ back ∧ (∀ i ∈ front, i < p) ∧
      List.range (slots.length + 1) = front.map (shift p) ++ p :: back.map (shift p) := by
  obtain ⟨n, hn⟩ := Nat.exists_eq_add_of_le hp
  refine ⟨List.range p, List.range' p n, ?_, fun i hi => List.mem_range.mp hi, ?_⟩
  · rw [hn, List.range_eq_range', List.range_eq_range', ← List.range'_append]
    simp
  · have hfront : (List.range p).map (shift p) = List.range p := by
      rw [List.map_congr_left fun i hi => shift_of_lt (List.mem_range.mp hi), List.map_id']
    have hback : (List.range' p n).map (shift p) = List.range' (p + 1) n := by
      rw [List.map_congr_left fun i hi => shift_of_le (List.mem_range'_1.mp hi).1,
        List.range'_succ_left]
    rw [hfront, hback, ← List.range'_succ, hn, List.range_eq_range', List.range_eq_range',
      Nat.add_assoc, ← List.range'_append]
    simp

/-- An idle slot is put into the order of the others, and what is stuck stays stuck. -/
theorem ofSlots_insertIdx (constants : Bindings) (slots : List SlotNames) (hp : p ≤ slots.length) :
    ∃ before after, (ofSlots constants (slots.insertIdx p idle)).ordered = before ++ p :: after ∧
      before ++ after = (ofSlots constants slots).ordered.map (shift p) ∧
      (ofSlots constants (slots.insertIdx p idle)).stuck = (ofSlots constants slots).stuck.map
      (shift p) := by
  obtain ⟨front, back, hrange, hfront, hrange'⟩ := range_insert hp
  have hlen : (front ++ back).length ≤ slots.length := by
    rw [← hrange, List.length_range]
  obtain ⟨before, after, hsched, horder⟩ :=
    (inserted_edges constants slots p).schedule_insert slots.length front back hfront hlen
  have hlen' : (slots.insertIdx p idle).length = slots.length + 1 :=
    List.length_insertIdx_of_le_length hp _
  refine ⟨before, after, ?_, ?_, ?_⟩
  · rw [ofSlots, hlen', hrange', hsched]
  · rw [ofSlots, hrange, horder]
  · rw [ofSlots, ofSlots, hlen', hrange', hsched, hrange]

theorem order_insertIdx (constants : Bindings) (slots : List SlotNames) (hp : p ≤ slots.length) :
    ∃ before after, (ofSlots constants (slots.insertIdx p idle)).order = before ++ p :: after ∧
      before ++ after = (ofSlots constants slots).order.map (shift p) := by
  obtain ⟨before, after, hordered, horder, hstuck⟩ := ofSlots_insertIdx constants slots hp
  refine ⟨before, after ++ (ofSlots constants slots).stuck.map (shift p), ?_, ?_⟩
  · rw [order, hordered, hstuck, List.append_assoc]
    rfl
  · rw [order, List.map_append, ← horder, List.append_assoc]

end UnitSheet.Plan
