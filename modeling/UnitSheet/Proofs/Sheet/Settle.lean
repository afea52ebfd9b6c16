import UnitSheet.Proofs.Plan.Order
import UnitSheet.Proofs.Sheet.Update
import UnitSheet.Sheet.Batch

namespace UnitSheet.Sheet

open Update UnitSheet.Computation UnitSheet.Frame

variable {slots : List Slot} {slot : Slot} {s t u : Sheet} {i : Nat} {e : Expr} {v : Value}
variable {x : String} {results results' : List Result} {previous : Option Value} {answer : Bool}

theorem slotAt?_eq_some :
    slotAt? slots i = some (slot, e) ↔ slots[i]? = some slot ∧ slot.expr? = some e := by
  rw [slotAt?, Option.bind_eq_some_iff]
  constructor
  · intro ⟨slot', hslot, h⟩
    obtain ⟨e', he, h⟩ := Option.map_eq_some_iff.mp h
    cases h
    exact ⟨hslot, he⟩
  · intro ⟨hslot, he⟩
    exact ⟨slot, hslot, by rw [he]; rfl⟩

theorem expr?_of_slotAt?_eq_none (h : slotAt? slots i = none) (hs : slots[i]? = some slot) :
    slot.expr? = none := by
  rwa [slotAt?, hs, Option.bind_some, Option.map_eq_none_iff] at h

theorem SameScope.plan_eq (h : SameScope s t) (slots : List Slot) :
    t.plan slots = s.plan slots := by
  rw [plan, plan, h.constants]

theorem mem_plan_order (s : Sheet) : i ∈ (s.plan slots).order ↔ i < slots.length := by
  rw [plan, Plan.mem_order, List.length_map]

def withOutcome (results : List Result) (i : Nat) (outcome : Except Failure Value) : List Result :=
  results.modify i ({ · with outcome := some outcome })

theorem map_withOutcome {γ : Type} {g : Result → γ} (hg : ∀ r o, g { r with outcome := o } = g r)
    (results : List Result) (i : Nat) (outcome : Except Failure Value) :
    (withOutcome results i outcome).map g = results.map g := by
  apply List.ext_getElem?
  intro j
  rw [withOutcome, List.getElem?_map, List.getElem?_map, List.getElem?_modify]
  cases results[j]? with
  | none => rfl
  | some r =>
    rw [Option.map_eq_map, Option.map_some, Option.map_some, Option.map_some]
    split
    · rw [hg]
    · rfl

theorem withOutcome_outcomes (results : List Result) (i : Nat) (outcome : Except Failure Value) :
    (withOutcome results i outcome).map Result.outcome =
      (results.map Result.outcome).set i (some outcome) := by
  apply List.ext_getElem?
  intro j
  simp only [withOutcome, List.getElem?_map, List.getElem?_modify, List.getElem?_set,
    List.length_map]
  by_cases hij : i = j
  · subst hij
    cases h : results[i]? with
    | none =>
      rw [List.getElem?_eq_none_iff] at h
      simp [Nat.not_lt.mpr h]
    | some r =>
      obtain ⟨hi, -⟩ := List.getElem?_eq_some_iff.mp h
      simp [hi]
  · simp [hij]

def noteOutcome (i : Nat) (outcome : Except Failure Value) (s : Sheet) : Sheet :=
  { s with journal := s.journal ++ [match outcome with
    | .ok v => .evaluated i v
    | .error f => .failed i f] }

theorem settle_ok (h : evaluateParsed slot.item e s = (.ok v, t)) :
    settle slot e i results s = (.ok (withOutcome results i (.ok v)), noteOutcome i (.ok v) t) := by
  have ha : attempt (evaluateParsed slot.item e) s = (.ok (.ok v), t) := by
    rw [attempt, h]
  rw [settle, bind_ok ha]
  rfl

theorem settle_failure {f : Failure} (h : evaluateParsed slot.item e s = (.error (.failure f), t)) :
    settle slot e i results s = (.ok (withOutcome results i (.error f)),
      noteOutcome i (.error f) t) := by
  have ha : attempt (evaluateParsed slot.item e) s = (.ok (.error f), t) := by
    rw [attempt, h]
  rw [settle, bind_ok ha]
  rfl

theorem settle_fault {f : Fault} (h : evaluateParsed slot.item e s = (.error (.fault f), t)) :
    settle slot e i results s = (.error f, t) := by
  have ha : attempt (evaluateParsed slot.item e) s = (.error f, t) := by
    rw [attempt, h]
  rw [settle, bind_error ha]

/-- Settling notes the outcome and does nothing else to the sheet that evaluation and conversion
leave. -/
theorem settle_alike (slot : Slot) (e : Expr) (i : Nat) (results : List Result) (s : Sheet) :
    Alike (evaluateParsed slot.item e s).2 (settle slot e i results s).2 := by
  rcases h : evaluateParsed slot.item e s with ⟨r, t⟩
  rcases r with (f | f) | v
  · rw [settle_failure h]
    exact .record t _
  · rw [settle_fault h]
    exact .refl t
  · rw [settle_ok h]
    exact .record t _

theorem settle_eq_ok (h : settle slot e i results s = (.ok results', t)) :
    ∃ outcome u, attempt (evaluateParsed slot.item e) s = (.ok outcome, u) ∧
      results' = withOutcome results i outcome ∧ t = noteOutcome i outcome u := by
  rcases hp : evaluateParsed slot.item e s with ⟨r, u⟩
  rcases r with (f | f) | v
  · rw [settle_failure hp] at h
    cases h
    exact ⟨.error f, u, by rw [attempt, hp], rfl, rfl⟩
  · rw [settle_fault hp] at h
    cases h
  · rw [settle_ok hp] at h
    cases h
    exact ⟨.ok v, u, by rw [attempt, hp], rfl, rfl⟩

theorem settleNext_none (h : slotAt? slots i = none) :
    settleNext slots previous answer results i s = (.ok results, s) := by
  rw [settleNext, h]
  rfl

theorem settleNext_some (hs : slots[i]? = some slot) (he : slot.expr? = some e) :
    settleNext slots previous answer results i s =
      settle slot e i results (readyFor slot (results.take i) previous answer s) := by
  rw [settleNext, slotAt?_eq_some.mpr ⟨hs, he⟩]
  rfl

theorem settleAll_singleton (slots : List Slot) (previous : Option Value) (answer : Bool) (i : Nat)
    (results : List Result) :
    settleAll slots previous answer [i] results = settleNext slots previous answer results i := by
  rw [settleAll, List.foldlM_cons]
  exact bind_pure _

/-- What a batch has come to when some slots have been settled. -/
def progress (slots : List Slot) (s : Sheet) (before : List Nat) :
    Except Fault (List Result) × Sheet :=
  settleAll slots (s.assigned.get? answerName) (definesAnswer slots) before
    (slots.map Result.ofSlot) (noteCycle (s.plan slots).stuck s)

theorem progress_append {before after : List Nat} :
    progress slots s (before ++ after) = (.ok results, t) ↔
      ∃ results' u, progress slots s before = (.ok results', u) ∧
        settleAll slots (s.assigned.get? answerName) (definesAnswer slots) after results' u
          = (.ok results, t) := by
  rw [progress, settleAll, List.foldlM_append, bind_eq_ok_iff]
  rfl

/-- The sheet on which a slot comes to its turn, behind the slots before it in the order. -/
inductive Turn (slots : List Slot) (s : Sheet) (i : Nat) (slot : Slot) (e : Expr) : Sheet → Prop
  | intro {before : List Nat} {results : List Result} {t : Sheet}
      (hp : before ++ [i] <+: (s.plan slots).order) (hr : progress slots s before =
        (.ok results, t))
      (hs : slots[i]? = some slot) (he : slot.expr? = some e) :
      Turn slots s i slot e
        (readyFor slot (results.take i) (s.assigned.get? answerName) (definesAnswer slots) t)

theorem store_get? (s : Sheet) (x y : String) (v : Option Value) :
    (s.store x v).assigned.get? y = if y = x then v else s.assigned.get? y := by
  cases v with
  | none => exact Bindings.get?_erase s.assigned x y
  | some v => exact Bindings.get?_insert s.assigned x y v

theorem bindAnswer_get? (results : List Result) (previous : Option Value) (s : Sheet)
    (hx : x ≠ answerName) :
    (s.bindAnswer results previous).assigned.get? x = s.assigned.get? x := by
  rw [bindAnswer, store_get?, if_neg hx]

theorem readyFor_sameScope (slot : Slot) (results : List Result) (previous : Option Value)
    (answer : Bool) (s : Sheet) : SameScope s (readyFor slot results previous answer s) := by
  rw [readyFor]
  split
  · exact ⟨rfl, rfl, rfl⟩
  · exact .refl s

theorem readyFor_of_not_mem (h : answerName ∉ slot.names) (results : List Result)
    (previous : Option Value) (answer : Bool) (s : Sheet) :
    readyFor slot results previous answer s = s := by
  rw [readyFor, if_neg fun hread => h hread.1]

/-- The turn of a slot changes no name but the last answer, and that one only if no slot defines
it. -/
theorem readyFor_get? (slot : Slot) (results : List Result) (previous : Option Value) (s : Sheet)
    (hx : x = answerName → answer = true) :
    (readyFor slot results previous answer s).assigned.get? x = s.assigned.get? x := by
  rw [readyFor]
  split
  · next h =>
    apply bindAnswer_get? _ _ _
    intro hans
    simp [hx hans] at h
  · rfl

theorem noteCycle_alike (stuck : List Nat) (s : Sheet) : Alike s (noteCycle stuck s) := by
  rw [noteCycle]
  split
  · exact .refl s
  · exact .record s _

theorem settleNext_sameScope (slots : List Slot) (previous : Option Value) (answer : Bool)
    (results : List Result) (i : Nat) (s : Sheet) :
    SameScope s (settleNext slots previous answer results i s).2 := by
  cases h : slotAt? slots i with
  | none =>
    rw [settleNext_none h]
    exact .refl s
  | some p =>
    obtain ⟨slot, e⟩ := p
    obtain ⟨hs, he⟩ := slotAt?_eq_some.mp h
    rw [settleNext_some hs he]
    have hready := readyFor_sameScope slot (results.take i) previous answer s
    have hparsed := hready.trans (evaluateParsed_sameScope slot.item e _)
    exact hparsed.trans (settle_alike ..).toSameScope

theorem progress_sameScope {before : List Nat} (h : progress slots s before = (.ok results, t)) :
    SameScope s t := by
  have hstart := (noteCycle_alike (s.plan slots).stuck s).toSameScope
  have hend : SameScope s (progress slots s before).2 :=
    foldlM_invariant (I := SameScope s) hstart fun _ i results t _ _ ht =>
      ht.trans (settleNext_sameScope slots _ _ results i t)
  rwa [h] at hend

theorem Turn.slot_eq (h : Turn slots s i slot e t) : slots[i]? = some slot := by
  cases h with
  | intro _ _ hs => exact hs

theorem Turn.expr_eq (h : Turn slots s i slot e t) : slot.expr? = some e := by
  cases h with
  | intro _ _ _ he => exact he

theorem Turn.sameScope (h : Turn slots s i slot e t) : SameScope s t := by
  cases h with
  | intro _ hr => exact (progress_sameScope hr).trans (readyFor_sameScope ..)

end UnitSheet.Sheet
