import UnitSheet.Proofs.Sheet.Batch

namespace UnitSheet.Sheet

open Update UnitSheet.Computation Plan

variable {items : List Item} {slots : List Slot} {slot : Slot} {s s₁ t : Sheet} {i : Nat}
variable {results shown : List Result} {before : List Nat}

/-- A slot comes to the error of its text, or to what evaluation and conversion give on its turn. -/
inductive Comes (slots : List Slot) (s : Sheet) (i : Nat) (slot : Slot) :
    Except Failure Value → Prop
  | unparsed {f : Failure} (h : slot.parsed = .error f) : Comes slots s i slot (.error f)
  | turn {e : Expr} {t u : Sheet} {o : Except Failure Value} (ht : Turn slots s i slot e t)
      (ho : attempt (evaluateParsed slot.item e) t = (.ok o, u)) : Comes slots s i slot o

/-- As far as a batch has come, the result of a slot belongs to it: an outcome is what the slot
comes to, and it is missing only where the slot waits for its turn. -/
structure Belongs (slots : List Slot) (s : Sheet) (before : List Nat) (i : Nat) (slot : Slot)
    (r : Result) : Prop where
  source : r.source = slot.item.value
  comes : ∀ o, r.outcome = some o → Comes slots s i slot o
  settled : i ∈ before ∨ slot.expr? = none → r.outcome ≠ none

theorem belongs_ofSlot (s : Sheet) (i : Nat) (slot : Slot) :
    Belongs slots s [] i slot (.ofSlot slot) := by
  cases hparsed : slot.parsed with
  | ok e =>
    have hout : (Result.ofSlot slot).outcome = none := by rw [Result.ofSlot, hparsed]
    refine ⟨rfl, fun o ho => ?_, ?_⟩
    · rw [hout] at ho
      cases ho
    · rintro (hi | he)
      · cases hi
      · rw [Slot.expr?, hparsed] at he
        cases he
  | error f =>
    have hout : (Result.ofSlot slot).outcome = some (.error f) := by rw [Result.ofSlot, hparsed]
    refine ⟨rfl, fun o ho => ?_, fun _ ho => ?_⟩
    · rw [hout] at ho
      cases ho
      exact .unparsed hparsed
    · rw [hout] at ho
      cases ho

theorem Belongs.snoc {j : Nat} {r : Result} (h : Belongs slots s before i slot r)
    (hj : j = i → slot.expr? = none) : Belongs slots s (before ++ [j]) i slot r where
  source := h.source
  comes := h.comes
  settled hi := by
    apply h.settled
    rcases hi with hi | he
    · rcases List.mem_append.mp hi with hi | hi
      · exact .inl hi
      · exact .inr (hj (List.mem_singleton.mp hi).symm)
    · exact .inr he

theorem Belongs.settleNext {j : Nat} {r : Result} {u : Sheet} (h : Belongs slots s before i slot r)
    (hget : results[i]? = some r) (hs : slots[i]? = some slot)
    (hp : before ++ [j] <+: (s.plan slots).order) (hr : progress slots s before = (.ok results, t))
    (hstep : settleNext slots (s.assigned.get? answerName) (definesAnswer slots) results j t
      = (.ok shown, u)) : ∃ r', shown[i]? = some r' ∧
        Belongs slots s (before ++ [j]) i slot r' := by
  cases hat : slotAt? slots j with
  | none =>
    rw [settleNext_none hat] at hstep
    cases hstep
    refine ⟨r, hget, h.snoc fun hij => ?_⟩
    exact expr?_of_slotAt?_eq_none (hij ▸ hat) hs
  | some p =>
    obtain ⟨slot', e⟩ := p
    obtain ⟨hs', he'⟩ := slotAt?_eq_some.mp hat
    rw [settleNext_some hs' he'] at hstep
    obtain ⟨o, w, hrun, rfl, -⟩ := settle_eq_ok hstep
    by_cases hij : j = i
    · subst hij
      obtain rfl := Option.some.inj (hs.symm.trans hs')
      have hcomes : Comes slots s j slot o := .turn (.intro hp hr hs he') hrun
      refine ⟨{ r with outcome := some o }, ?_, h.source, fun o' ho' => ?_, fun _ ho' => ?_⟩
      · rw [withOutcome, List.getElem?_modify_eq, hget]
        rfl
      · cases ho'
        exact hcomes
      · cases ho'
    · refine ⟨r, ?_, h.snoc fun hji => (hij hji).elim⟩
      rw [withOutcome, List.getElem?_modify_ne _ _ hij, hget]

theorem progress_belongs (hp : before <+: (s.plan slots).order)
    (hr : progress slots s before = (.ok results, t)) (hs : slots[i]? = some slot) :
    ∃ r, results[i]? = some r ∧ Belongs slots s before i slot r := by
  induction before using List.reverseRecOn generalizing results t with
  | nil =>
    cases hr
    exact ⟨.ofSlot slot, by rw [List.getElem?_map, hs]; rfl, belongs_ofSlot s i slot⟩
  | append_singleton before j ih =>
    obtain ⟨results', u, hr', hlast⟩ := progress_append.mp hr
    obtain ⟨r, hget, hbelongs⟩ := ih ((List.prefix_append _ _).trans hp) hr'
    rw [settleAll_singleton] at hlast
    exact hbelongs.settleNext hget hs hp hr' hlast

theorem progress_map {γ : Type} {g : Result → γ} (hg : ∀ r o, g { r with outcome := o } = g r)
    (hr : progress slots s before = (.ok results, t)) : results.map g =
      slots.map fun slot => g (.ofSlot slot) := by
  have hstart : (slots.map Result.ofSlot).map g = slots.map fun slot => g (.ofSlot slot) :=
    List.map_map
  refine foldlM_ok_invariant (I := fun r _ => r.map g = slots.map fun slot => g (.ofSlot slot)) hr
    hstart fun _ i r u r' u' _ _ hmap hstep => ?_
  cases hat : slotAt? slots i with
  | none =>
    rw [settleNext_none hat] at hstep
    cases hstep
    exact hmap
  | some p =>
    obtain ⟨slot, e⟩ := p
    obtain ⟨hs, he⟩ := slotAt?_eq_some.mp hat
    rw [settleNext_some hs he] at hstep
    obtain ⟨o, w, -, rfl, -⟩ := settle_eq_ok hstep
    rw [map_withOutcome hg, hmap]

theorem progress_length (hr : progress slots s before = (.ok results, t)) :
    results.length = slots.length := by
  have hmap := progress_map (g := fun _ => ()) (fun _ _ => rfl) hr
  simpa using congrArg List.length hmap

/-- A batch has a result for each item, which records what the slot of the item comes to. -/
structure Isolated (items : List Item) (s : Sheet) (slots : List Slot) (s₁ : Sheet)
    (shown : List Result) : Prop where
  slots_eq : Sheet.slots items s = (.ok slots, s₁)
  parses : List.Forall₂ (Parses s) items slots
  length_eq : shown.length = items.length
  recorded : ∀ i slot, slots[i]? = some slot → ∃ r o, shown[i]? = some r ∧
    r.source = slot.item.value ∧ Comes slots s₁ i slot o ∧
    r.outcome = some (if isDisplayLeaf (slots.map Slot.slotNames) i then o else o.map Value.exact)

theorem Isolated.exists_slot {r : Result} (h : Isolated items s slots s₁ shown)
    (hr : shown[i]? = some r) : ∃ slot o, slots[i]? = some slot ∧ Comes slots s₁ i slot o ∧
      r.outcome =
        some (if isDisplayLeaf (slots.map Slot.slotNames) i then o else o.map Value.exact) := by
  have hi : i < slots.length := by
    rw [← h.parses.length_eq, ← h.length_eq]
    exact (List.getElem?_eq_some_iff.mp hr).1
  have hs := List.getElem?_eq_getElem hi
  obtain ⟨r', o, hr', -, hcomes, ho⟩ := h.recorded i _ hs
  obtain rfl := Option.some.inj (hr.symm.trans hr')
  exact ⟨_, o, hs, hcomes, ho⟩

/-- A batch that returns has come to all slots. -/
theorem batch_isolated (h : batch items s = (.ok shown, t)) :
    ∃ slots s₁, Isolated items s slots s₁ shown := by
  obtain ⟨slots, s₁, hslots, h⟩ := batch_eq_ok h
  obtain ⟨-, hparses⟩ := slots_eq_ok hslots
  obtain ⟨results, u, hrun, rfl, -⟩ := evaluateSlots_eq_ok h
  refine ⟨slots, s₁, hslots, hparses, ?_, fun i slot hs => ?_⟩
  · rw [displayed, List.length_mapIdx, progress_length hrun, hparses.length_eq]
  · obtain ⟨r, hget, hbelongs⟩ := progress_belongs (List.prefix_refl _) hrun hs
    have hi : i ∈ (s₁.plan slots).order :=
      (mem_plan_order s₁).mpr (List.getElem?_eq_some_iff.mp hs).1
    cases ho : r.outcome with
    | none => exact (hbelongs.settled (.inl hi) ho).elim
    | some o =>
      have hcomes := hbelongs.comes o ho
      rw [displayed_getElem?, hget, Option.map_some]
      split
      · exact ⟨r, o, rfl, hbelongs.source, hcomes, ho⟩
      · exact ⟨r.exact, o, rfl, hbelongs.source, hcomes, by rw [Result.exact, ho]; rfl⟩

end UnitSheet.Sheet
