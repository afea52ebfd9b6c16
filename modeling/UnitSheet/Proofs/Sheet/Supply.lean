import UnitSheet.Proofs.Evaluation.Root
import UnitSheet.Proofs.Sheet.Source

namespace UnitSheet.Sheet

open Plan Relation

variable {slots slots' : List Slot} {s : Sheet} {constants : Bindings} {d r slot : Slot} {i j : Nat}
variable {x : String}

/-- A slot defines a name that another slot reads. -/
inductive Supplies (constants : Bindings) (slots : List Slot) (d r : Slot) : Prop
  | intro {x : String} (hd : d ∈ slots) (hr : r ∈ slots) (hx : x ∈ r.names)
      (hc : constants.contains x = false) (ht : d.target = some x) (hne : r.target ≠ some x)

/-- What functions may read that depend on no slot: the names that no slot defines. -/
def outside (slots : List Slot) : Access where
  reads x := ∀ slot ∈ slots, slot.target ≠ some x
  writes _ := False

/-- Each name has at most one definition, at the root of an expression, and no value is converted;
no slot reads the last answer; no function on the sheet assigns, or reads a name of the batch; and
no slots wait for each other. -/
structure SingleDefinitions (slots : List Slot) (s : Sheet) : Prop where
  plain : ∀ slot ∈ slots, isBlankText slot.item.conversion = true
  unique : (slots.filterMap Slot.target).Nodup
  answer : ∀ slot ∈ slots, answerName ∉ slot.names
  roots : ∀ slot ∈ slots, ∀ e, slot.expr? = some e → ∀ x, ¬ e.AssignsBelow x
  constants : ∀ x v, s.constants.get? x = some v → v.KeepsTo (outside slots)
  assigned : ∀ x v, s.assigned.get? x = some v → v.KeepsTo (outside slots)
  acyclic : Acyclic (edges s.constants (slots.map Slot.slotNames))

theorem mem_reads : x ∈ reads (slots.map Slot.slotNames) i ↔ ∃ slot, slots[i]? = some slot ∧
    x ∈ slot.names := by
  rw [reads, List.getElem?_map]
  cases slots[i]? with
  | none => simp
  | some slot => simp [Slot.slotNames]

theorem index_unique (h : (slots.filterMap Slot.target).Nodup)
    (hi : Defines (slots.map Slot.slotNames) i x) (hj : Defines (slots.map Slot.slotNames) j x) :
    i = j := by
  obtain ⟨a, ha, hat⟩ := defines_iff.mp hi
  obtain ⟨b, hb, hbt⟩ := defines_iff.mp hj
  obtain ⟨hil, rfl⟩ := List.getElem?_eq_some_iff.mp ha
  obtain ⟨hjl, rfl⟩ := List.getElem?_eq_some_iff.mp hb
  rw [List.Nodup, List.pairwise_filterMap, List.pairwise_iff_getElem] at h
  rcases Nat.lt_trichotomy i j with hlt | heq | hgt
  · exact (h i j hil hjl hlt x hat x hbt rfl).elim
  · exact heq
  · exact (h j i hjl hil hgt x hbt x hat rfl).elim

theorem target_unique (h : (slots.filterMap Slot.target).Nodup) (hd : d ∈ slots) (hr : r ∈ slots)
    (hdt : d.target = some x) (hrt : r.target = some x) : d = r := by
  obtain ⟨i, hi⟩ := List.getElem?_of_mem hd
  obtain ⟨j, hj⟩ := List.getElem?_of_mem hr
  obtain rfl := index_unique h (defines_iff.mpr ⟨d, hi, hdt⟩) (defines_iff.mpr ⟨r, hj, hrt⟩)
  exact Option.some.inj (hi.symm.trans hj)

/-- Where names are defined once, the edges of a batch run from the slots that supply others to
these. -/
theorem mem_edges_iff_supplies (hunique : (slots.filterMap Slot.target).Nodup)
    (hanswer : ∀ slot ∈ slots, answerName ∉ slot.names) {u v : Nat} :
    (u, v) ∈ edges constants (slots.map Slot.slotNames) ↔
      ∃ d r, slots[u]? = some d ∧ slots[v]? = some r ∧ Supplies constants slots d r := by
  constructor
  · intro he
    rcases mem_edges.mp he with hchain | hlast | ⟨i, x, hx, hc, hread⟩
    · obtain ⟨x, hmem⟩ := mem_chainEdges.mp hchain
      obtain ⟨hu, hv⟩ := consecutive_mem hmem
      have heq := index_unique hunique (mem_definitions.mp hu) (mem_definitions.mp hv)
      exact absurd heq (Nat.ne_of_lt (consecutive_lt (definitions_sorted _ x) hmem))
    · obtain ⟨slot, hs, hread⟩ := mem_reads.mp (mem_answerEdges.mp hlast).2.1
      exact (hanswer slot (List.mem_of_getElem? hs) hread).elim
    · obtain ⟨k, hk, hcase⟩ := mem_readEdges.mp hread
      rcases hcase with ⟨rfl, rfl⟩ | ⟨rfl, hv, -, hlt⟩
      · obtain ⟨r, hr, hxr⟩ := mem_reads.mp hx
        obtain ⟨d, hd, ht⟩ := defines_iff.mp hk.defines
        have hne : r.target ≠ some x := fun hrt =>
          hk.ne (index_unique hunique hk.defines (defines_iff.mpr ⟨r, hr, hrt⟩))
        exact ⟨d, r, hd, hr,
          .intro (List.mem_of_getElem? hd) (List.mem_of_getElem? hr) hxr hc ht hne⟩
      · exact absurd (index_unique hunique hk.defines hv) (Nat.ne_of_lt hlt)
  · intro ⟨d, r, hd, hr, hsupply⟩
    cases hsupply with
    | @intro x _ _ hx hc ht hne =>
      have hdef : Defines (slots.map Slot.slotNames) u x := defines_iff.mpr ⟨d, hd, ht⟩
      have huv : u ≠ v := by
        rintro rfl
        rw [hd] at hr
        cases hr
        exact hne ht
      obtain ⟨k, hk⟩ := exists_isSource hdef huv
      rw [index_unique hunique hdef hk.defines]
      exact hk.edge (mem_reads.mpr ⟨r, hr, hx⟩) hc

theorem exists_index_of_path (hunique : (slots.filterMap Slot.target).Nodup)
    (hanswer : ∀ slot ∈ slots, answerName ∉ slot.names)
    (hp : TransGen (Supplies constants slots) d r) (hi : slots[i]? = some r) :
    ∃ j, slots[j]? = some d ∧
      TransGen (fun u v => (u, v) ∈ edges constants (slots.map Slot.slotNames)) j i := by
  induction hp using TransGen.head_induction_on with
  | @single d h =>
    cases h with
    | @intro x hd hr hx hc ht hne =>
      obtain ⟨j, hj⟩ := List.getElem?_of_mem hd
      exact ⟨j, hj, .single ((mem_edges_iff_supplies hunique hanswer).mpr
        ⟨d, r, hj, hi, .intro hd hr hx hc ht hne⟩)⟩
  | @head d m h _ ih =>
    obtain ⟨k, hk, hpath⟩ := ih
    cases h with
    | @intro x hd hr hx hc ht hne =>
      obtain ⟨j, hj⟩ := List.getElem?_of_mem hd
      exact ⟨j, hj, .head ((mem_edges_iff_supplies hunique hanswer).mpr
        ⟨d, m, hj, hk, .intro hd hr hx hc ht hne⟩) hpath⟩

theorem exists_path_of_index (hunique : (slots.filterMap Slot.target).Nodup)
    (hanswer : ∀ slot ∈ slots, answerName ∉ slot.names) {u v : Nat}
    (hp : TransGen (fun u v => (u, v) ∈ edges constants (slots.map Slot.slotNames)) u v) :
    ∃ d r, slots[u]? = some d ∧ slots[v]? = some r ∧ TransGen (Supplies constants slots) d r := by
  induction hp with
  | single h =>
    obtain ⟨d, r, hd, hr, hs⟩ := (mem_edges_iff_supplies hunique hanswer).mp h
    exact ⟨d, r, hd, hr, .single hs⟩
  | tail _ h ih =>
    obtain ⟨d, m, hd, hm, hdm⟩ := ih
    obtain ⟨m', r, hm', hr, hs⟩ := (mem_edges_iff_supplies hunique hanswer).mp h
    obtain rfl := Option.some.inj (hm.symm.trans hm')
    exact ⟨d, r, hd, hr, hdm.tail hs⟩

namespace SingleDefinitions

theorem not_supplies_self (h : SingleDefinitions slots s) :
    ¬ TransGen (Supplies s.constants slots) d d := by
  intro hp
  obtain ⟨m, hm, -⟩ := TransGen.head'_iff.mp hp
  cases hm with
  | @intro x hd _ _ _ ht _ =>
    obtain ⟨i, hi⟩ := List.getElem?_of_mem hd
    obtain ⟨j, hj, hpath⟩ := exists_index_of_path h.unique h.answer hp hi
    obtain rfl := index_unique h.unique (defines_iff.mpr ⟨d, hi, ht⟩) (defines_iff.mpr ⟨d, hj, ht⟩)
    exact h.acyclic i hpath

end SingleDefinitions

theorem supplies_perm (hp : slots.Perm slots') (h : Supplies constants slots d r) :
    Supplies constants slots' d r := by
  cases h with
  | intro hd hr hx hc ht hne => exact .intro (hp.mem_iff.mp hd) (hp.mem_iff.mp hr) hx hc ht hne

theorem outside_perm (hp : slots.Perm slots') : outside slots' = outside slots := by
  simp only [outside, hp.mem_iff]

theorem SingleDefinitions.perm (h : SingleDefinitions slots s) (hp : slots.Perm slots') :
    SingleDefinitions slots' s := by
  have hunique : (slots'.filterMap Slot.target).Nodup := (hp.filterMap _).nodup_iff.mp h.unique
  have hanswer : ∀ slot ∈ slots', answerName ∉ slot.names := fun slot hs =>
    h.answer slot (hp.mem_iff.mpr hs)
  exact {
    plain := fun slot hs => h.plain slot (hp.mem_iff.mpr hs)
    unique := hunique
    answer := hanswer
    roots := fun slot hs => h.roots slot (hp.mem_iff.mpr hs)
    constants := by
      rw [outside_perm hp]
      exact h.constants
    assigned := by
      rw [outside_perm hp]
      exact h.assigned
    acyclic := fun v hv => by
      obtain ⟨d, r, hd, hr, hpath⟩ := exists_path_of_index hunique hanswer hv
      obtain rfl := Option.some.inj (hd.symm.trans hr)
      exact h.not_supplies_self (TransGen.mono (fun _ _ => supplies_perm hp.symm) _ _ hpath) }

end UnitSheet.Sheet
