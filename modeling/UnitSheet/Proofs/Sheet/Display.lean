import UnitSheet.Proofs.Sheet.Turns

namespace UnitSheet

open Plan

namespace Plan

def ReadsAnother (slots : List SlotNames) (i : Nat) :
    Prop := ∃ x ∈ reads slots i, ∃ j, j ≠ i ∧ Defines slots j x

def ReadByAnother (slots : List SlotNames) (i : Nat) :
    Prop := ∃ x j, Defines slots i x ∧ j ≠ i ∧ x ∈ reads slots j

/-- The slot reads no name that the batch defines, unless it defines that name itself. -/
def ReadsOwnOnly (slots : List SlotNames) (i : Nat) : Prop :=
  ∀ x ∈ reads slots i, (∃ j, Defines slots j x) → Defines slots i x

/-- The slot stands at the end of the dependencies of a batch. -/
def IsLeaf (slots : List SlotNames) (i : Nat) :
    Prop := ReadsAnother slots i ∧ ¬ ReadByAnother slots i

end Plan

namespace Value

def quantities : Value → List Quantity
  | scalar q => [q]
  | list qs => qs
  | _ => []

theorem figures_exact {v : Value} {q : Quantity} (hq : q ∈ v.exact.quantities) : q.figures = 0 := by
  cases v with
  | scalar p =>
    rw [List.mem_singleton.mp hq]
    rfl
  | list ps =>
    obtain ⟨p, -, rfl⟩ := List.mem_map.mp hq
    rfl
  | boolean b => cases hq
  | function f params body => cases hq

end Value

namespace Sheet

variable {names : List SlotNames} {slots : List Slot} {items : List Item} {s t : Sheet} {i : Nat}
variable {shown : List Result}

theorem exists_target_iff {x : String} :
    (∃ other ∈ names, other.target = some x) ↔ ∃ j, Defines names j x := by
  simp only [List.mem_iff_getElem?, Defines, Option.bind_eq_some_iff]
  constructor
  · rintro ⟨other, ⟨j, hj⟩, hx⟩
    exact ⟨j, other, hj, hx⟩
  · rintro ⟨j, other, hj, hx⟩
    exact ⟨other, ⟨j, hj⟩, hx⟩

theorem exists_names_iff {x : String} :
    (∃ other ∈ names.eraseIdx i, x ∈ other.names) ↔ ∃ j, j ≠ i ∧ x ∈ reads names j := by
  simp only [List.mem_eraseIdx_iff_getElem?]
  constructor
  · rintro ⟨other, ⟨j, hne, hj⟩, hx⟩
    exact ⟨j, hne, by rw [reads, hj]; exact hx⟩
  · rintro ⟨j, hne, hx⟩
    have hj := List.getElem?_eq_getElem (lt_of_mem_reads hx)
    rw [reads, hj] at hx
    exact ⟨_, ⟨j, hne, hj⟩, hx⟩

theorem reads_of_getElem? {slot : SlotNames} (hi : names[i]? = some slot) :
    reads names i = slot.names := by
  rw [reads, hi]
  rfl

theorem defines_of_getElem? {slot : SlotNames} (hi : names[i]? = some slot) (x : String) :
    Defines names i x ↔ slot.target = some x := by
  rw [Defines, hi]
  rfl

theorem readsBatch_iff {slot : SlotNames} (hi : names[i]? = some slot) :
    (slot.names.any fun x => some x ≠ slot.target && names.any fun other => other.target = some x) =
    true ↔ ¬ ReadsOwnOnly names i := by
  simp only [List.any_eq_true, Bool.and_eq_true, decide_eq_true_eq, exists_target_iff, ReadsOwnOnly,
    reads_of_getElem? hi, defines_of_getElem? hi, not_forall]
  constructor
  · rintro ⟨x, hx, hne, hdef⟩
    exact ⟨x, hx, hdef, fun h => hne h.symm⟩
  · rintro ⟨x, hx, hdef, hne⟩
    exact ⟨x, hx, fun h => hne h.symm, hdef⟩

theorem isRead_iff {slot : SlotNames} (hi : names[i]? = some slot) :
    (slot.target.any fun x => (names.eraseIdx i).any fun other => x ∈ other.names) = true ↔
    ReadByAnother names i := by
  simp only [Option.any_eq_true, List.any_eq_true, decide_eq_true_eq, exists_names_iff,
    ReadByAnother, defines_of_getElem? hi]
  constructor
  · rintro ⟨x, hx, j, hj⟩
    exact ⟨x, j, hx, hj⟩
  · rintro ⟨x, j, hx, hj⟩
    exact ⟨x, hx, j, hj⟩

theorem readsAnother_of_not_readsOwnOnly (h : ¬ ReadsOwnOnly names i) : ReadsAnother names i := by
  simp only [ReadsOwnOnly, not_forall] at h
  obtain ⟨x, hx, ⟨j, hj⟩, hown⟩ := h
  refine ⟨x, hx, j, ?_, hj⟩
  rintro rfl
  exact hown hj

theorem isDisplayLeaf_iff :
    isDisplayLeaf names i = true ↔ IsLeaf names i ∧ ¬ ReadsOwnOnly names i := by
  cases hi : names[i]? with
  | none =>
    have hreads : reads names i = [] := by
      rw [reads, hi]
      rfl
    rw [isDisplayLeaf, hi]
    refine iff_of_false Bool.false_ne_true ?_
    rintro ⟨-, hown⟩
    refine hown fun x hx => ?_
    rw [hreads] at hx
    cases hx
  | some slot =>
    rw [isDisplayLeaf, hi]
    simp only [Bool.and_eq_true, Bool.not_eq_true', ← Bool.not_eq_true, readsBatch_iff hi,
      isRead_iff hi]
    constructor
    · rintro ⟨hreads, hread⟩
      exact ⟨⟨readsAnother_of_not_readsOwnOnly hreads, hread⟩, hreads⟩
    · rintro ⟨⟨_, hread⟩, hreads⟩
      exact ⟨hreads, hread⟩

/-- A batch shows a value as it has been evaluated if the slot reads what another one defines, no
other one reads what it defines, and its own name is not the only one of the batch that it reads.
All other values are shown as exact. -/
theorem figures_shown (items : List Item) (s t : Sheet) (shown : List Result)
    (h : batch items s = (.ok shown, t)) : ∃ slots s₁, Sheet.slots items s = (.ok slots, s₁) ∧
      ∀ i r w, shown[i]? = some r → r.value? = some w → ∃ v, Succeeds slots s₁ i v ∧
        (IsLeaf (slots.map Slot.slotNames) i ∧ ¬ ReadsOwnOnly (slots.map Slot.slotNames) i →
          w = v) ∧
        (¬ (IsLeaf (slots.map Slot.slotNames) i ∧ ¬ ReadsOwnOnly (slots.map Slot.slotNames) i) →
          w = v.exact ∧ ∀ q ∈ w.quantities, q.figures = 0) := by
  obtain ⟨slots, s₁, hisolated⟩ := batch_isolated h
  refine ⟨slots, s₁, hisolated.slots_eq, fun i r w hr hw => ?_⟩
  obtain ⟨slot, o, hs, hcomes, ho⟩ := hisolated.exists_slot hr
  rw [Result.value?, ho, Option.bind_some] at hw
  cases o with
  | error f => split at hw <;> cases hw
  | ok v =>
    refine ⟨v, ⟨_, hs, hcomes⟩, fun hleaf => ?_, fun hleaf => ?_⟩ <;>
      rw [← isDisplayLeaf_iff] at hleaf
    · rw [if_pos hleaf] at hw
      exact (Option.some.inj hw).symm
    · rw [if_neg hleaf] at hw
      obtain rfl : v.exact = w := Option.some.inj hw
      exact ⟨rfl, fun _ => Value.figures_exact⟩

def measured : List Item := [{ value := "x=1.50" }, { value := "y=x+1.25" }]

theorem measured_run : (batch measured {}).1.isOk = true ∧
    (((batch measured {}).1.toOption.getD [])[1]?.bind Result.value?).isSome = true := by
  decide +kernel

theorem measured_figures_shown : ∃ slots s₁ shown t r v, Sheet.slots measured {} = (.ok slots, s₁) ∧
    batch measured {} = (.ok shown, t) ∧ IsLeaf (slots.map Slot.slotNames) 1 ∧
    ¬ ReadsOwnOnly (slots.map Slot.slotNames) 1 ∧ Succeeds slots s₁ 1 v ∧ shown[1]? = some r ∧
      r.value? = some v := by
  obtain ⟨hok, hvalue⟩ := measured_run
  obtain ⟨shown, hrun⟩ := Computation.run_of_isOk hok
  rw [hrun] at hvalue
  obtain ⟨w, hw⟩ := Option.isSome_iff_exists.mp hvalue
  obtain ⟨r, hr, hw⟩ := Option.bind_eq_some_iff.mp hw
  obtain ⟨slots, s₁, hslots, hfigures⟩ := figures_shown measured {} _ shown hrun
  have hparsed : Sheet.slots measured {} = (.ok _, {}) := rfl
  have hdisplay : isDisplayLeaf (slots.map Slot.slotNames) 1 = true := by
    rw [hparsed] at hslots
    cases hslots
    rfl
  have hleaf := isDisplayLeaf_iff.mp hdisplay
  obtain ⟨v, hv, hkept, -⟩ := hfigures 1 r w hr hw
  exact ⟨slots, s₁, shown, _, r, v, hslots, hrun, hleaf.1, hleaf.2, hv, hr, hkept hleaf ▸ hw⟩

def incremented : List Item := [{ value := "x=1.50" }, { value := "x=x+1.25" }]

def incrementedNames : List SlotNames := [⟨some "x", []⟩, ⟨some "x", ["x"]⟩]

theorem incremented_names {s₁ : Sheet} (h : Sheet.slots incremented {} = (.ok slots, s₁)) :
    slots.map Slot.slotNames = incrementedNames := by
  have hslots : Sheet.slots incremented {} = (.ok _, {}) := rfl
  rw [hslots] at h
  cases h
  rfl

theorem incremented_isLeaf : IsLeaf incrementedNames 1 := by
  constructor
  · exact ⟨"x", List.mem_singleton.mpr rfl, 0, by decide, rfl⟩
  · rintro ⟨x, j, -, hne, hx⟩
    have hj : j < 2 := lt_of_mem_reads hx
    obtain rfl : j = 0 := by omega
    cases hx

theorem incremented_outcomes : (batch incremented {}).1.isOk = true ∧
    (batch incremented {}).2.outcomes.map
    (fun p => (p.1, p.2.toOption.map fun v => v.quantities.map (·.figures))) =
      [(0, some [3]), (1, some [3])] := by
  decide +kernel

/-- The second definition reads the first one and is read by none, and its three figures are not
shown. -/
theorem incremented_shown_exact :
    ∃ slots s₁ shown t r v w, Sheet.slots incremented {} = (.ok slots, s₁) ∧
    batch incremented {} = (.ok shown, t) ∧ IsLeaf (slots.map Slot.slotNames) 1 ∧
      Succeeds slots s₁ 1 v ∧
    shown[1]? = some r ∧ r.value? = some w ∧ (∃ q ∈ v.quantities, q.figures = 3) ∧
    ∀ q ∈ w.quantities, q.figures = 0 := by
  obtain ⟨hok, htold⟩ := incremented_outcomes
  obtain ⟨shown, hrun⟩ := Computation.run_of_isOk hok
  obtain ⟨slots, s₁, hisolated⟩ := batch_isolated hrun
  have hnames := incremented_names hisolated.slots_eq
  obtain ⟨-, turns, hturns, htakes⟩ := batch_turns hrun hisolated.slots_eq
  obtain rfl : (batch incremented {}).2.outcomes = turns := hturns
  have hmem : (1, some [3]) ∈ (batch incremented {}).2.outcomes.map fun p =>
      (p.1, p.2.toOption.map fun v => v.quantities.map (·.figures)) := by
    rw [htold]
    decide
  obtain ⟨⟨_, o⟩, hturn, heq⟩ := List.mem_map.mp hmem
  obtain ⟨rfl, ho⟩ := Prod.mk.inj heq
  obtain ⟨v, hv, hfigures⟩ := Option.map_eq_some_iff.mp ho
  obtain ⟨slot, e, u, w, ht, hattempt⟩ := htakes.outcome _ _ hturn
  have hcomes : Comes slots s₁ 1 slot o := .turn ht hattempt
  obtain ⟨r, o', hr, -, hcomes', hshown⟩ := hisolated.recorded 1 slot ht.slot_eq
  obtain rfl := hcomes.unique hcomes'
  cases o with
  | error f => cases hv
  | ok v' =>
    cases hv
    rw [hnames] at hshown
    have hthree : ∃ q ∈ v.quantities, q.figures = 3 :=
      List.mem_map.mp (hfigures ▸ List.mem_singleton.mpr rfl)
    refine ⟨slots, s₁, shown, _, r, v, v.exact, hisolated.slots_eq, hrun,
      hnames ▸ incremented_isLeaf,
      ⟨slot, ht.slot_eq, hcomes⟩, hr, ?_, hthree, fun _ => Value.figures_exact⟩
    rw [Result.value?, hshown]
    rfl

end Sheet

end UnitSheet
