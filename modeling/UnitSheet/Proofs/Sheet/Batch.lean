import UnitSheet.Proofs.Sheet.Settle

namespace UnitSheet.Sheet

open Update UnitSheet.Computation

variable {items : List Item} {item : Item} {slots : List Slot} {slot : Slot} {s t u : Sheet}
variable {results : List Result} {i : Nat}

/-- The slot of an item holds what its text is parsed to. -/
structure Parses (s : Sheet) (item : Item) (slot : Slot) : Prop where
  item_eq : slot.item = item
  parse_eq : s.parse item = slot.parsed.mapError .failure

theorem SameScope.parse_eq (h : SameScope s t) (item : Item) : t.parse item = s.parse item := by
  rw [parse, parse, h.nesting]

theorem Parses.of_sameScope (h : Parses s item slot) (hs : SameScope s t) : Parses t item slot :=
  ⟨h.item_eq, by rw [hs.parse_eq, h.parse_eq]⟩

theorem Parses.unique {slot' : Slot} (h : Parses s item slot) (h' : Parses s item slot') :
    slot = slot' := by
  obtain ⟨rfl, hp⟩ := h
  obtain ⟨hitem, hp'⟩ := h'
  cases slot with | mk item parsed =>
  cases slot' with | mk item' parsed' =>
  cases hitem
  have hparsed := hp.symm.trans hp'
  cases parsed with
  | ok e =>
    cases parsed' with
    | ok e' =>
      cases hparsed
      rfl
    | error f => cases hparsed
  | error f =>
    cases parsed' with
    | ok e => cases hparsed
    | error f' =>
      cases hparsed
      rfl

theorem parses_or_fault (s : Sheet) (item : Item) :
    (∃ slot, Parses s item slot) ∨ ∃ f, s.parse item = .error (.fault f) := by
  rcases h : s.parse item with (f | f) | e
  · exact .inl ⟨⟨item, .error f⟩, rfl, h⟩
  · exact .inr ⟨f, rfl⟩
  · exact .inl ⟨⟨item, .ok e⟩, rfl, h⟩

/-- The sheet with a note about a slot that could not be parsed. -/
def noteParsed (n : Nat) (slot : Slot) (s : Sheet) : Sheet :=
  match slot.parsed with
  | .ok _ => s
  | .error f => { s with journal := s.journal ++ [.notParsed n f] }

theorem noteParsed_alike (n : Nat) (slot : Slot) (s : Sheet) : Alike s (noteParsed n slot s) := by
  rw [noteParsed]
  split
  · exact .refl s
  · exact .record s _

theorem slotsFrom_cons {n : Nat} (h : Parses s item slot) :
    slotsFrom n (item :: items) s =
      (do let rest ← slotsFrom (n + 1) items; return slot :: rest) (noteParsed n slot s) := by
  obtain ⟨rfl, hp⟩ := h
  cases slot with | mk item parsed =>
  have hattempt : attempt (lift (s.parse item)) s = (.ok parsed, s) := by
    rw [hp]
    cases parsed <;> rfl
  rw [slotsFrom, get_bind, bind_ok hattempt]
  cases parsed <;> rfl

theorem slotsFrom_cons_fault {n : Nat} {f : Fault} (h : s.parse item = .error (.fault f)) :
    slotsFrom n (item :: items) s = (.error f, s) := by
  rw [slotsFrom, get_bind, h]
  rfl

theorem slotsFrom_ok {n : Nat} (h : List.Forall₂ (Parses s) items slots) (hs : SameScope s t) :
    ∃ u, slotsFrom n items t = (.ok slots, u) ∧ Alike t u := by
  induction h generalizing n t with
  | nil => exact ⟨t, rfl, .refl t⟩
  | @cons item slot _ _ hp _ ih =>
    have hnote := noteParsed_alike n slot t
    obtain ⟨u, hrest, hu⟩ := ih (n := n + 1) (hs.trans hnote.toSameScope)
    refine ⟨u, ?_, hnote.trans hu⟩
    rw [slotsFrom_cons (hp.of_sameScope hs), bind_ok hrest]
    rfl

theorem slotsFrom_fault {n : Nat} {f : Fault} (after : List Item)
    (h : List.Forall₂ (Parses s) items slots)
    (hf : s.parse item = .error (.fault f)) (hs : SameScope s t) :
    ∃ u, slotsFrom n (items ++ item :: after) t = (.error f, u) := by
  induction h generalizing n t with
  | nil => exact ⟨t, slotsFrom_cons_fault ((hs.parse_eq item).trans hf)⟩
  | @cons _ slot _ _ hp _ ih =>
    obtain ⟨u, hrest⟩ := ih (n := n + 1) (hs.trans (noteParsed_alike n slot t).toSameScope)
    exact ⟨u, by rw [List.cons_append, slotsFrom_cons (hp.of_sameScope hs), bind_error hrest]⟩

theorem parse_all_or_fault (s : Sheet) (items : List Item) :
    (∃ slots, List.Forall₂ (Parses s) items slots) ∨
      ∃ before slots item after f, items = before ++ item :: after ∧
        List.Forall₂ (Parses s) before slots ∧ s.parse item = .error (.fault f) := by
  induction items with
  | nil => exact .inl ⟨[], .nil⟩
  | cons item items ih =>
    rcases parses_or_fault s item with ⟨slot, hp⟩ | ⟨f, hf⟩
    · rcases ih with ⟨slots, hslots⟩ | ⟨before, slots, bad, after, f, rfl, hbefore, hf⟩
      · exact .inl ⟨slot :: slots, .cons hp hslots⟩
      · exact .inr ⟨item :: before, slot :: slots, bad, after, f, rfl, .cons hp hbefore, hf⟩
    · exact .inr ⟨[], [], item, items, f, rfl, .nil, hf⟩

theorem slots_ok (h : List.Forall₂ (Parses s) items slots) :
    ∃ t, Sheet.slots items s = (.ok slots, t) ∧ Alike s t :=
  slotsFrom_ok h (.refl s)

theorem slots_eq_ok (h : Sheet.slots items s = (.ok slots, t)) :
    Alike s t ∧ List.Forall₂ (Parses s) items slots := by
  rcases parse_all_or_fault s items with ⟨slots', hslots⟩ | ⟨before, _, item, after, f, rfl,
    hbefore, hf⟩
  · obtain ⟨u, hrun, hu⟩ := slots_ok hslots
    rw [h] at hrun
    cases hrun
    exact ⟨hu, hslots⟩
  · obtain ⟨u, hrun⟩ := slotsFrom_fault (n := 0) after hbefore hf (.refl s)
    rw [Sheet.slots, hrun] at h
    cases h

theorem evaluateSlots_eq (slots : List Slot) (s : Sheet) :
    evaluateSlots slots s = (do
      let results ← settleAll slots (s.assigned.get? answerName) (definesAnswer slots)
        (s.plan slots).order (slots.map Result.ofSlot)
      unless definesAnswer slots do modify (bindAnswer results (s.assigned.get? answerName))
      return displayed slots results) (noteCycle (s.plan slots).stuck s) := by
  rw [evaluateSlots, get_bind]
  exact bind_ok rfl

/-- A batch shows its results when it has come to all its slots, and binds the last answer. -/
theorem evaluateSlots_ok (h : progress slots s (s.plan slots).order = (.ok results, u)) :
    evaluateSlots slots s = (.ok (displayed slots results),
      if definesAnswer slots then u else u.bindAnswer results (s.assigned.get? answerName)) := by
  rw [evaluateSlots_eq, bind_ok h]
  cases definesAnswer slots <;> rfl

theorem evaluateSlots_error {f : Fault}
    (h : progress slots s (s.plan slots).order = (.error f, u)) :
    evaluateSlots slots s = (.error f, u) := by
  rw [evaluateSlots_eq, bind_error h]

theorem evaluateSlots_eq_ok {shown : List Result} (h : evaluateSlots slots s = (.ok shown, t)) :
    ∃ results u, progress slots s (s.plan slots).order = (.ok results, u) ∧
      shown = displayed slots results ∧
      t = if definesAnswer slots then u else u.bindAnswer results (s.assigned.get? answerName) := by
  rcases hrun : progress slots s (s.plan slots).order with ⟨r, u⟩
  cases r with
  | ok results =>
    rw [evaluateSlots_ok hrun] at h
    cases h
    exact ⟨results, u, rfl, rfl, rfl⟩
  | error f =>
    rw [evaluateSlots_error hrun] at h
    cases h

theorem batch_eq_ok {shown : List Result} (h : batch items s = (.ok shown, t)) :
    ∃ slots s₁, Sheet.slots items s = (.ok slots, s₁) ∧ evaluateSlots slots s₁ = (.ok shown, t) :=
  bind_eq_ok_iff.mp h

theorem displayed_getElem? (slots : List Slot) (results : List Result) (i : Nat) :
    (displayed slots results)[i]? = results[i]?.map fun r =>
      if isDisplayLeaf (slots.map Slot.slotNames) i then r else r.exact :=
  List.getElem?_mapIdx

theorem displayed_outcomes {outcomes : List (Except Failure Value)}
    (h : results.map Result.outcome = outcomes.map some) :
    (displayed slots results).map Result.outcome =
      outcomes.mapIdx fun i o =>
        some (if isDisplayLeaf (slots.map Slot.slotNames) i then o else o.map Value.exact) := by
  apply List.ext_getElem?
  intro i
  have hi := congrArg (·[i]?) h
  simp only [List.getElem?_map] at hi
  rw [List.getElem?_map, displayed_getElem?, List.getElem?_mapIdx]
  cases hr : results[i]? with
  | none =>
    rw [hr] at hi
    cases ho : outcomes[i]? with
    | none => rfl
    | some o =>
      rw [ho] at hi
      cases hi
  | some r =>
    rw [hr] at hi
    cases ho : outcomes[i]? with
    | none =>
      rw [ho] at hi
      cases hi
    | some o =>
      rw [ho] at hi
      have hro : r.outcome = some o := Option.some.inj hi
      simp only [Option.map_some, Option.some.injEq]
      split
      · exact hro
      · rw [Result.exact, hro]
        rfl

end UnitSheet.Sheet
