import UnitSheet.Proofs.Plan.Schedule

namespace UnitSheet.Plan

open Relation

variable {constants : Bindings} {slots : List SlotNames} {x : String} {i j d u v : Nat}

def Defines (slots : List SlotNames) (i : Nat) (x : String) : Prop :=
  (slots[i]?.bind (·.target)) = some x

/-- The definition of a name that the slot `i` is to see: the nearest one before it, or where there
is none the first one after it. -/
inductive IsSource (slots : List SlotNames) (x : String) (i d : Nat) : Prop
  | before (hd : Defines slots d x) (hlt : d < i)
      (hnearest : ∀ j, Defines slots j x → j < i → j ≤ d)
  | after (hd : Defines slots d x) (hlt : i < d) (hnone : ∀ j, Defines slots j x → ¬ j < i)
      (hfirst : ∀ j, Defines slots j x → i < j → d ≤ j)

instance : Decidable (Defines slots i x) := inferInstanceAs (Decidable (_ = _))

theorem Defines.lt (h : Defines slots i x) : i < slots.length := by
  by_contra hlt
  simp [Defines, List.getElem?_eq_none (Nat.not_lt.mp hlt)] at h

theorem mem_definitions : i ∈ definitions slots x ↔ Defines slots i x := by
  rw [definitions, List.mem_filter, List.mem_range, decide_eq_true_eq]
  exact ⟨fun h => h.2, fun h => ⟨h.lt, h⟩⟩

theorem definitions_sorted (slots : List SlotNames) (x : String) :
    (definitions slots x).Pairwise (· < ·) :=
  List.pairwise_lt_range.filter _

theorem mem_targets : x ∈ targets slots ↔ ∃ i, Defines slots i x := by
  rw [targets, List.mem_eraseDups, List.mem_filterMap]
  constructor
  · intro ⟨slot, hslot, ht⟩
    obtain ⟨i, hi⟩ := List.getElem?_of_mem hslot
    exact ⟨i, by rw [Defines, hi]; exact ht⟩
  · intro ⟨i, hi⟩
    obtain ⟨slot, hslot, ht⟩ := Option.bind_eq_some_iff.mp hi
    exact ⟨slot, List.mem_of_getElem? hslot, ht⟩

theorem lt_of_mem_reads (h : x ∈ reads slots i) : i < slots.length := by
  by_contra hlt
  simp [reads, List.getElem?_eq_none (Nat.not_lt.mp hlt)] at h

theorem IsSource.defines (h : IsSource slots x i d) : Defines slots d x := by
  cases h with
  | before hd => exact hd
  | after hd => exact hd

theorem IsSource.ne (h : IsSource slots x i d) : d ≠ i := by
  cases h with
  | before _ hlt => exact Nat.ne_of_lt hlt
  | after _ hlt => exact Nat.ne_of_gt hlt

theorem IsSource.unique {d' : Nat} (h : IsSource slots x i d) (h' : IsSource slots x i d') :
    d = d' := by
  cases h with
  | before hd hlt hnearest =>
    cases h' with
    | before hd' hlt' hnearest' => exact Nat.le_antisymm (hnearest' d hd hlt) (hnearest d' hd' hlt')
    | after _ _ hnone => exact (hnone d hd hlt).elim
  | after hd hlt hnone hfirst =>
    cases h' with
    | before hd' hlt' => exact (hnone d' hd' hlt').elim
    | after hd' hlt' _ hfirst' => exact Nat.le_antisymm (hfirst d' hd' hlt') (hfirst' d hd hlt)

theorem le_getLast {l : List Nat} (hl : l.Pairwise (· < ·)) {a b : Nat} (ha : a ∈ l)
    (hb : l.getLast? = some b) : a ≤ b := by
  obtain ⟨front, rfl⟩ := List.getLast?_eq_some_iff.mp hb
  rcases List.mem_append.mp ha with h | h
  · exact Nat.le_of_lt ((List.pairwise_append.mp hl).2.2 a h b (List.mem_singleton.mpr rfl))
  · exact Nat.le_of_eq (List.mem_singleton.mp h)

theorem head_le {l : List Nat} (hl : l.Pairwise (· < ·)) {a b : Nat} (ha : a ∈ l)
    (hb : l.head? = some b) : b ≤ a := by
  obtain ⟨back, rfl⟩ := List.head?_eq_some_iff.mp hb
  rcases List.mem_cons.mp ha with h | h
  · exact Nat.le_of_eq h.symm
  · exact Nat.le_of_lt ((List.pairwise_cons.mp hl).1 a h)

theorem mem_others : j ∈ others slots i x ↔ Defines slots j x ∧ j ≠ i := by
  rw [others, List.mem_filter, mem_definitions, decide_eq_true_eq]

theorem others_sorted (slots : List SlotNames) (i : Nat) (x : String) :
    (others slots i x).Pairwise (· < ·) :=
  (definitions_sorted slots x).filter _

theorem isSource_of_source? (h : source? (others slots i x) i = some d) :
    IsSource slots x i d := by
  have hsorted := others_sorted slots i x
  rw [source?] at h
  cases hlast : ((others slots i x).filter (· < i)).getLast? with
  | some b =>
    obtain rfl : b = d := by
      rw [hlast] at h
      exact Option.some.inj h
    obtain ⟨hb, hlt⟩ := List.mem_filter.mp (List.mem_of_getLast? hlast)
    refine .before (mem_others.mp hb).1 (by simpa using hlt) fun j hj hji => ?_
    have hmem : j ∈ (others slots i x).filter (· < i) :=
      List.mem_filter.mpr ⟨mem_others.mpr ⟨hj, Nat.ne_of_lt hji⟩, by simpa using hji⟩
    exact le_getLast (hsorted.filter _) hmem hlast
  | none =>
    have hempty := List.getLast?_eq_none_iff.mp hlast
    have hnone (j : Nat) (hj : Defines slots j x) : ¬ j < i := fun hji => by
      have hmem : j ∈ (others slots i x).filter (· < i) :=
        List.mem_filter.mpr ⟨mem_others.mpr ⟨hj, Nat.ne_of_lt hji⟩, by simpa using hji⟩
      rw [hempty] at hmem
      exact List.not_mem_nil hmem
    have hhead : (others slots i x).head? = some d := by
      rw [hlast] at h
      exact h
    obtain ⟨hd, hne⟩ := mem_others.mp (List.mem_of_head? hhead)
    refine .after hd ?_ hnone fun j hj hji => ?_
    · have := hnone d hd
      omega
    · exact head_le hsorted (mem_others.mpr ⟨hj, Nat.ne_of_gt hji⟩) hhead

theorem exists_source? (hj : Defines slots j x) (hne : j ≠ i) :
    ∃ d, source? (others slots i x) i = some d := by
  have hmem : j ∈ others slots i x := mem_others.mpr ⟨hj, hne⟩
  cases h : source? (others slots i x) i with
  | some d => exact ⟨d, rfl⟩
  | none =>
    rw [source?, Option.or_eq_none_iff, List.head?_eq_none_iff] at h
    rw [h.2] at hmem
    exact (List.not_mem_nil hmem).elim

/-- A name with another definition has one that the slot is to see. -/
theorem exists_isSource (hj : Defines slots j x) (hne : j ≠ i) : ∃ d, IsSource slots x i d := by
  obtain ⟨d, hd⟩ := exists_source? hj hne
  exact ⟨d, isSource_of_source? hd⟩

theorem IsSource.source?_eq (h : IsSource slots x i d) :
    source? (others slots i x) i = some d := by
  obtain ⟨d', hd'⟩ := exists_source? h.defines h.ne
  rw [hd', (isSource_of_source? hd').unique h]

theorem mem_readEdges : (u, v) ∈ readEdges slots i x ↔
    ∃ d, IsSource slots x i d ∧
      ((u = d ∧ v = i) ∨ (u = i ∧ Defines slots v x ∧ v ≠ i ∧ d < v)) := by
  rw [readEdges]
  cases h : source? (others slots i x) i with
  | none =>
    simp only [List.not_mem_nil, false_iff]
    rintro ⟨d, hd, -⟩
    rw [hd.source?_eq] at h
    exact Option.some_ne_none d h
  | some s =>
    have hs := isSource_of_source? h
    have hmem : (u, v) ∈ (s, i) :: ((others slots i x).filter (s < ·)).map (i, ·) ↔
        (u = s ∧ v = i) ∨ (u = i ∧ Defines slots v x ∧ v ≠ i ∧ s < v) := by
      simp only [List.mem_cons, Prod.mk.injEq, List.mem_map, List.mem_filter, mem_others,
        decide_eq_true_eq]
      constructor
      · rintro (h | ⟨w, ⟨⟨hw, hne⟩, hlt⟩, rfl, rfl⟩)
        · exact .inl h
        · exact .inr ⟨rfl, hw, hne, hlt⟩
      · rintro (h | ⟨rfl, hv, hne, hlt⟩)
        · exact .inl h
        · exact .inr ⟨v, ⟨⟨hv, hne⟩, hlt⟩, rfl, rfl⟩
    exact hmem.trans ⟨fun h => ⟨s, hs, h⟩, fun ⟨d, hd, h⟩ => hd.unique hs ▸ h⟩

theorem mem_answerEdges : (u, v) ∈ answerEdges slots ↔
    (∀ k, ¬ Defines slots k answerName) ∧ answerName ∈ reads slots v ∧ u < v := by
  rw [answerEdges]
  split
  · next h =>
    obtain ⟨k, hk⟩ := mem_targets.mp h
    simp only [List.not_mem_nil, false_iff, not_and]
    exact fun hnone => (hnone k hk).elim
  · next h =>
    have hnone : ∀ k, ¬ Defines slots k answerName := fun k hk => h (mem_targets.mpr ⟨k, hk⟩)
    simp only [List.mem_flatMap, List.mem_range]
    constructor
    · intro ⟨j, hj, hm⟩
      split at hm
      · next hread =>
        obtain ⟨w, hw, he⟩ := List.mem_map.mp hm
        cases he
        exact ⟨hnone, hread, List.mem_range.mp hw⟩
      · simp at hm
    · rintro ⟨-, hread, hlt⟩
      refine ⟨v, lt_of_mem_reads hread, ?_⟩
      rw [if_pos hread]
      exact List.mem_map.mpr ⟨u, List.mem_range.mpr hlt, rfl⟩

end UnitSheet.Plan
