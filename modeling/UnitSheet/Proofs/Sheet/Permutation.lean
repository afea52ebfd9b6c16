import Mathlib.Data.List.Perm.Basic
import UnitSheet.Proofs.Sheet.Solution

namespace UnitSheet

def Item.ofText (text : String) : Item := { value := text }

namespace Sheet

open Plan

variable {items : List Item} {slots slots' : List Slot} {s t final : Sheet} {i j : Nat}

theorem isDisplayLeaf_perm {names names' : List SlotNames} (hp : names.Perm names')
    (hij : names[i]? = names'[j]?) : isDisplayLeaf names i = isDisplayLeaf names' j := by
  have hothers : (names.eraseIdx i).Perm (names'.eraseIdx j) :=
    (List.perm_eraseIdx_of_getElem?_eq hij).mpr hp
  have hany {l l' : List SlotNames} (h : l.Perm l') (p : SlotNames → Bool) :
      l.any p = l'.any p := by
    rw [Bool.eq_iff_iff, List.any_eq_true, List.any_eq_true]
    simp only [h.mem_iff]
  simp only [isDisplayLeaf, hij, hany hp, hany hothers]

theorem exists_displayed (slots : List Slot) (result : Slot → Result) :
    ∃ shown : Slot → Result, ∀ slots', slots.Perm slots' →
      displayed slots' (slots'.map result) = slots'.map shown := by
  classical
  let leaf (slot : Slot) : Prop :=
    ∃ i, slots[i]? = some slot ∧ isDisplayLeaf (slots.map Slot.slotNames) i = true
  refine ⟨fun slot => if leaf slot then result slot else (result slot).exact, fun slots' hp => ?_⟩
  apply List.ext_getElem?
  intro j
  rw [displayed, List.getElem?_mapIdx, List.getElem?_map, List.getElem?_map]
  cases hj : slots'[j]? with
  | none => rfl
  | some slot =>
    have hleaf : isDisplayLeaf (slots'.map Slot.slotNames) j = true ↔ leaf slot := by
      have hsame {i : Nat} (hi : slots[i]? = some slot) :
          isDisplayLeaf (slots.map Slot.slotNames) i =
            isDisplayLeaf (slots'.map Slot.slotNames) j :=
        isDisplayLeaf_perm (hp.map _) (by rw [List.getElem?_map, List.getElem?_map, hi, hj])
      constructor
      · intro h
        obtain ⟨i, hi⟩ := List.getElem?_of_mem (hp.mem_iff.mpr (List.mem_of_getElem? hj))
        exact ⟨i, hi, (hsame hi).trans h⟩
      · intro ⟨i, hi, h⟩
        exact (hsame hi).symm.trans h
    simp only [Option.map_some, hleaf]

theorem SingleDefinitions.of_alike (h : SingleDefinitions slots s) (ha : Alike s t) :
    SingleDefinitions slots t where
  plain := h.plain
  unique := h.unique
  answer := h.answer
  roots := h.roots
  constants := by
    rw [ha.constants]
    exact h.constants
  assigned := by
    rw [ha.assigned]
    exact h.assigned
  acyclic := by
    rw [ha.constants]
    exact h.acyclic

theorem around_of_alike (ha : Alike s t) (slot : Slot) (final : Sheet) :
    around slot t final = around slot s final := by
  rw [around, around, ha.assigned]

theorem Solves.of_alike (hf : Solves slots s final) (ha : Alike s t) : Solves slots t final where
  toSameScope := ha.symm.toSameScope.trans hf.toSameScope
  unchanged x hx := by rw [ha.assigned, hf.unchanged x hx]
  keeps d hd x v ht hv := by
    rw [ha.constants]
    exact hf.keeps d hd x v ht hv
  own slot hs e he x hx := by rw [around_of_alike ha, hf.own slot hs e he x hx]
  outcome slot hs e he := by
    rw [around_of_alike ha]
    exact hf.outcome slot hs e he

theorem slots_eq_map {slot : Item → Slot} (h : List.Forall₂ (Parses s) items slots)
    (hslot : ∀ item ∈ items, Parses s item (slot item)) : slots = items.map slot := by
  induction h with
  | nil => rfl
  | cons hp _ ih =>
    rw [List.map_cons, ih fun item hi => hslot item (List.mem_cons_of_mem _ hi),
      hp.unique (hslot _ List.mem_cons_self)]

theorem forall₂_map {slot : Item → Slot} (h : ∀ item ∈ items, Parses s item (slot item)) :
    List.Forall₂ (Parses s) items (items.map slot) := by
  rw [List.forall₂_map_right_iff, List.forall₂_same]
  exact h

theorem exists_slot (h : List.Forall₂ (Parses s) items slots) :
    ∃ slot : Item → Slot, ∀ item ∈ items, Parses s item (slot item) := by
  have hmem : ∀ item, ∃ slot, item ∈ items → Parses s item slot := by
    intro item
    by_cases hi : item ∈ items
    · obtain ⟨i, hlt, rfl⟩ := List.getElem_of_mem hi
      exact ⟨_, fun _ => h.get hlt (h.length_eq ▸ hlt)⟩
    · exact ⟨⟨item, .ok (.name answerName)⟩, fun hi' => (hi hi').elim⟩
  choose slot hslot using hmem
  exact ⟨slot, hslot⟩

/-- A batch shows the results that its slots have on any solution, and leaves the variables of the
solution. -/
theorem Solves.evaluateSlots_ok (h : SingleDefinitions slots s) (hf : Solves slots s final)
    (ha : Alike s t) : ∃ u, evaluateSlots slots t =
        (.ok (displayed slots (slots.map fun slot => resultOn (around slot s final) slot)), u) ∧
      ∀ x, x ≠ answerName → u.assigned.get? x = final.assigned.get? x := by
  obtain ⟨u, hrun, hu⟩ := (hf.of_alike ha).progress_order (h.of_alike ha)
  simp only [around_of_alike ha] at hrun
  refine ⟨_, Sheet.evaluateSlots_ok hrun, fun x hx => ?_⟩
  split
  · exact hu x
  · exact (bindAnswer_get? _ _ _ hx).trans (hu x)

/-- Each item of a batch with single definitions has the same result in every order of the items,
and the batch leaves the same variables apart from the last answer. -/
theorem batch_perm (texts texts' : List String) (s s₁ t : Sheet) (slots : List Slot)
    (shown : List Result)
    (hslots : Sheet.slots (texts.map Item.ofText) s = (.ok slots, s₁))
    (h : SingleDefinitions slots s)
    (hp : texts.Perm texts') (hrun : batch (texts.map Item.ofText) s = (.ok shown, t)) :
    ∃ (result : String → Result) (t' : Sheet), shown = texts.map result ∧
      batch (texts'.map Item.ofText) s = (.ok (texts'.map result), t') ∧
      ∀ x, x ≠ answerName → t'.assigned.get? x = t.assigned.get? x := by
  obtain ⟨hs, hparses⟩ := slots_eq_ok hslots
  obtain ⟨slots₀, s₀, hslots₀, hrun⟩ := batch_eq_ok hrun
  rw [hslots] at hslots₀
  cases hslots₀
  obtain ⟨results, final, hprogress, -, -⟩ := evaluateSlots_eq_ok hrun
  have hf := (solves_of_progress (h.of_alike hs) hprogress).of_alike hs.symm
  obtain ⟨u, hu, hvars⟩ := hf.evaluateSlots_ok h hs
  rw [hrun] at hu
  cases hu
  -- A text determines its slot, so the other order has the same slots, and the same solution.
  obtain ⟨slot, hslot⟩ := exists_slot hparses
  obtain rfl := slots_eq_map hparses hslot
  have hitems := hp.map Item.ofText
  have hslot' : ∀ item ∈ texts'.map Item.ofText, Parses s item (slot item) := fun item hi =>
    hslot item (hitems.mem_iff.mpr hi)
  have hperm := hitems.map slot
  obtain ⟨s₁', hslots', hs'⟩ := slots_ok (forall₂_map hslot')
  obtain ⟨t', ht', hvars'⟩ := (hf.perm hperm).evaluateSlots_ok (h.perm hperm) hs'
  obtain ⟨display, hshow⟩ := exists_displayed _ fun slot => resultOn (around slot s final) slot
  refine ⟨fun text => display (slot (Item.ofText text)), t', ?_, ?_, fun x hx => ?_⟩
  · rw [hshow _ (List.Perm.refl _), List.map_map, List.map_map]
    rfl
  · refine (Computation.bind_ok hslots').trans ?_
    rw [ht', hshow _ hperm, List.map_map, List.map_map]
    rfl
  · rw [hvars' x hx, hvars x hx]

def forward : List String := ["y=x", "x=1", "x+y"]

def forwardSlots : List Slot :=
  [⟨.ofText "y=x", .ok (.assign "y" (.name "x"))⟩,
   ⟨.ofText "x=1", .ok (.assign "x" (.literal { value := 1, text := "1" }))⟩,
   ⟨.ofText "x+y", .ok (.binary (.arithmetic .add) (.name "x") (.name "y"))⟩]

theorem forwardSlots_singleDefinitions : SingleDefinitions forwardSlots {} where
  plain := by decide
  unique := by decide +kernel
  answer := by decide +kernel
  roots := by
    have hflat : ∀ slot ∈ forwardSlots, isFlat {} slot = true := by decide +kernel
    exact fun slot hs e he x => isFlat_expr (hflat slot hs) he
  constants x v hv := by cases hv
  assigned x v hv := by cases hv
  acyclic := Acyclic.of_rank (fun i => if i = 0 then 1 else if i = 1 then 0 else 2)
    (by decide +kernel)

theorem forward_batch_isOk : (batch (forward.map Item.ofText) {}).1.isOk = true := by
  decide +kernel

theorem forward_batch_perm :
    ∃ shown t result t', batch (forward.map Item.ofText) {} = (.ok shown, t) ∧
    shown = forward.map result ∧
    batch (forward.reverse.map Item.ofText) {} = (.ok (forward.reverse.map result), t') ∧
    ∀ x, x ≠ answerName → t'.assigned.get? x = t.assigned.get? x := by
  have hslots : Sheet.slots (forward.map Item.ofText) {} = (.ok forwardSlots, {}) := rfl
  have hok := forward_batch_isOk
  rcases hbatch : batch (forward.map Item.ofText) {} with ⟨r, t⟩
  rw [hbatch] at hok
  cases r with
  | error f => cases hok
  | ok shown =>
    obtain ⟨result, t', h⟩ := batch_perm forward forward.reverse {} {} t forwardSlots shown hslots
      forwardSlots_singleDefinitions (List.reverse_perm forward).symm hbatch
    exact ⟨shown, t, result, t', rfl, h⟩

end Sheet

end UnitSheet
