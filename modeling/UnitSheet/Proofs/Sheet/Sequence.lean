import UnitSheet.Proofs.Sheet.Batch

namespace UnitSheet.Sheet

open Update UnitSheet.Computation Plan

variable {items : List Item} {item : Item} {slots : List Slot} {slot : Slot} {s t u : Sheet}
variable {results : List Result} {outcome : Except Failure Value} {i : Nat} {e : Expr}

/-- Evaluates items one by one; the failure of one does not stop the others. -/
def sequence (items : List Item) : Update Fault (List (Except Failure Value)) :=
  items.mapM fun item => attempt (evaluateItem item)

theorem attempt_congr {α : Type} {m m' : Update Stop α} (h : m s = m' s) :
    attempt m s = attempt m' s := by
  rw [attempt, attempt, h]

theorem Parses.attempt_error {f : Failure} (h : Parses s item slot) (hp : slot.parsed = .error f) :
    attempt (evaluateItem item) s = (.ok (.error f), s) := by
  have hparse : lift (s.parse item) s = (.error (.failure f), s) := by
    rw [h.parse_eq, hp]
    rfl
  have hitem : evaluateItem item s = (.error (.failure f), s) := by
    rw [evaluateItem, get_bind]
    exact bind_error hparse
  rw [attempt, hitem]

theorem Parses.attempt_ok (h : Parses s item slot) (hp : slot.parsed = .ok e) :
    attempt (evaluateItem item) s = attempt (evaluateParsed slot.item e) s := by
  refine attempt_congr ?_
  have hparse : lift (s.parse item) s = (.ok e, s) := by
    rw [h.parse_eq, hp]
    rfl
  rw [evaluateItem, get_bind, h.item_eq]
  exact bind_ok hparse

theorem settleNext_sequence {previous : Option Value} {answer : Bool} {results' : List Result}
    (hp : Parses s item slot) (halike : Alike u s) (hs : slots[i]? = some slot)
    (hanswer : answerName ∉ slot.names)
    (hopen : (results.map Result.outcome)[i]? = some (Result.ofSlot slot).outcome)
    (h : settleNext slots previous answer results i u = (.ok results', t)) :
    ∃ outcome t', attempt (evaluateItem item) s = (.ok outcome, t') ∧ Alike t t' ∧
      results'.map Result.outcome = (results.map Result.outcome).set i (some outcome) := by
  cases hparsed : slot.parsed with
  | error f =>
    have hat : slotAt? slots i = none := by
      rw [slotAt?, hs, Option.bind_some, Slot.expr?, hparsed]
      rfl
    rw [settleNext_none hat] at h
    cases h
    refine ⟨.error f, s, hp.attempt_error hparsed, halike, ?_⟩
    have hinit : (Result.ofSlot slot).outcome = some (.error f) := by
      rw [Result.ofSlot, hparsed]
    rw [hinit] at hopen
    obtain ⟨hi, hget⟩ := List.getElem?_eq_some_iff.mp hopen
    rw [← hget, List.set_getElem_self]
  | ok e =>
    have he : slot.expr? = some e := by
      rw [Slot.expr?, hparsed]
      rfl
    rw [settleNext_some hs he, readyFor_of_not_mem hanswer] at h
    obtain ⟨outcome, w, hrun, rfl, rfl⟩ := settle_eq_ok h
    obtain ⟨hout, hw⟩ := blind_attempt (blind_evaluateParsed slot.item e) u s halike
    rw [hrun] at hout hw
    refine ⟨outcome, _, ?_, (Alike.record w _).symm.trans hw,
      withOutcome_outcomes results i outcome⟩
    rw [hp.attempt_ok hparsed]
    exact Prod.ext hout rfl

/-- As far as a batch has come in the order of its items, it has come like the items one by one. -/
theorem progress_range {s₁ : Sheet} (hslots : List.Forall₂ (Parses s) items slots) (hs : Alike s s₁)
    (hanswer : ∀ slot ∈ slots, answerName ∉ slot.names) (k : Nat) (hk : k ≤ slots.length)
    (hr : progress slots s₁ (List.range k) = (.ok results, t)) :
    ∃ outcomes t', sequence (items.take k) s = (.ok outcomes, t') ∧ Alike t t' ∧
      outcomes.length = k ∧
      results.map Result.outcome =
        outcomes.map some ++ (slots.drop k).map fun slot => (Result.ofSlot slot).outcome := by
  induction k generalizing results t with
  | zero =>
    cases hr
    exact ⟨[], s, rfl, (hs.trans (noteCycle_alike _ s₁)).symm, rfl, by simp⟩
  | succ k ih =>
    rw [List.range_succ] at hr
    obtain ⟨results', u, hr', hlast⟩ := progress_append.mp hr
    obtain ⟨outcomes, t', hseq, halike, rfl, hout⟩ := ih (by omega) hr'
    rw [settleAll_singleton] at hlast
    have hki : outcomes.length < items.length := by
      rw [hslots.length_eq]
      exact hk
    have hscope := (hs.toSameScope.trans (progress_sameScope hr')).trans halike.toSameScope
    have hparses := (hslots.get hki hk).of_sameScope hscope
    rw [List.drop_eq_getElem_cons hk, List.map_cons] at hout
    have hopen : (results'.map Result.outcome)[outcomes.length]? =
        some (Result.ofSlot slots[outcomes.length]).outcome := by
      rw [hout]
      simp
    obtain ⟨outcome, w, hitem, hw, hset⟩ := settleNext_sequence hparses halike
      (List.getElem?_eq_getElem hk) (hanswer _ (List.getElem_mem hk)) hopen hlast
    refine ⟨outcomes ++ [outcome], w, ?_, hw, by simp, ?_⟩
    · rw [List.take_succ_eq_append_getElem hki]
      exact mapM_snoc hseq hitem
    · rw [hset, hout]
      simp

/-- Without forward references, and where no slot reads the last answer, a batch runs in the order
of its items and gives what they give one by one: the same failures, and the same values, of which
only display leaves keep their significant figures. It leaves the same variables apart from the last
answer. -/
theorem batch_sequence (items : List Item) (s s₁ : Sheet) (slots : List Slot)
    (hslots : Sheet.slots items s = (.ok slots, s₁))
    (hanswer : ∀ slot ∈ slots, answerName ∉ slot.names)
    (hforward : NoForwardReference s.constants (slots.map Slot.slotNames)) :
    s.plan slots = ⟨List.range items.length, []⟩ ∧
      ∀ shown t, batch items s = (.ok shown, t) →
        ∃ outcomes t', sequence items s = (.ok outcomes, t') ∧
          shown.map Result.outcome = (outcomes.mapIdx fun i o =>
            some (if isDisplayLeaf (slots.map Slot.slotNames) i then o else o.map Value.exact)) ∧
          ∀ y, y ≠ answerName → t.assigned.get? y = t'.assigned.get? y := by
  obtain ⟨hs, hparses⟩ := slots_eq_ok hslots
  have hlen := hparses.length_eq
  have hplan : s.plan slots = ⟨List.range items.length, []⟩ := by
    rw [plan, hforward.plan, List.length_map, hlen]
  refine ⟨hplan, fun shown t h => ?_⟩
  obtain ⟨slots', s₁', hslots', h⟩ := batch_eq_ok h
  rw [hslots] at hslots'
  cases hslots'
  obtain ⟨results, u, hrun, rfl, rfl⟩ := evaluateSlots_eq_ok h
  rw [hs.plan_eq, hplan, Plan.order, List.append_nil, hlen] at hrun
  obtain ⟨outcomes, t', hseq, halike, -, hout⟩ := progress_range hparses hs hanswer _ le_rfl hrun
  rw [← hlen, List.take_length] at hseq
  rw [List.drop_length, List.map_nil, List.append_nil] at hout
  refine ⟨outcomes, t', hseq, displayed_outcomes hout, fun y hy => ?_⟩
  rw [halike.assigned]
  split
  · rfl
  · exact bindAnswer_get? _ _ _ hy

def redefinition : List Item :=
  [{ value := "x=1" }, { value := "y=x" }, { value := "x=x+y" }, { value := "x+y" }]

def redefinitionSlots : List Slot :=
  [⟨{ value := "x=1" }, .ok (.assign "x" (.literal { value := 1, text := "1" }))⟩,
   ⟨{ value := "y=x" }, .ok (.assign "y" (.name "x"))⟩,
   ⟨{ value := "x=x+y" }, .ok (.assign "x" (.binary (.arithmetic .add) (.name "x") (.name "y")))⟩,
   ⟨{ value := "x+y" }, .ok (.binary (.arithmetic .add) (.name "x") (.name "y"))⟩]

theorem redefinition_batch_isOk : (batch redefinition {}).1.isOk = true := by
  decide +kernel

theorem redefinition_sequence : ∃ shown t outcomes t', batch redefinition {} = (.ok shown, t) ∧
    sequence redefinition {} = (.ok outcomes, t') ∧
    shown.map Result.outcome = (outcomes.mapIdx fun i o =>
      some (if isDisplayLeaf (redefinitionSlots.map Slot.slotNames) i then o
        else o.map Value.exact)) ∧
    ∀ y, y ≠ answerName → t.assigned.get? y = t'.assigned.get? y := by
  have hslots : Sheet.slots redefinition {} = (.ok redefinitionSlots, {}) := rfl
  have hanswer : ∀ slot ∈ redefinitionSlots, answerName ∉ slot.names := by decide +kernel
  have hforward : NoForwardReference {} (redefinitionSlots.map Slot.slotNames) := by decide +kernel
  have hok := redefinition_batch_isOk
  rcases hbatch : batch redefinition {} with ⟨r, t⟩
  rw [hbatch] at hok
  cases r with
  | error f => cases hok
  | ok shown =>
    obtain ⟨outcomes, t', h⟩ :=
      (batch_sequence redefinition {} {} redefinitionSlots hslots hanswer hforward).2 shown t hbatch
    exact ⟨shown, t, outcomes, t', rfl, h⟩

end UnitSheet.Sheet
