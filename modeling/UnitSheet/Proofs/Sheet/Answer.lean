import UnitSheet.Proofs.Sheet.Outcome
import UnitSheet.Proofs.Sheet.Source

namespace UnitSheet.Sheet

open Update UnitSheet.Computation Plan

/-- Among the values that come up at the indices below `n`, the one at the greatest index; if there
is none, what there was before. -/
inductive Latest (comes : Nat → Value → Prop) (previous : Option Value) (n : Nat) :
    Option Value → Prop
  | value {j : Nat} {v : Value} (hj : j < n) (hv : comes j v)
      (hlast : ∀ k w, j < k → k < n → ¬ comes k w) : Latest comes previous n (some v)
  | none (hnone : ∀ k w, k < n → ¬ comes k w) : Latest comes previous n previous

variable {slots : List Slot} {slot : Slot} {s t : Sheet} {i j n : Nat} {results : List Result}
variable {e : Expr} {comes comes' : Nat → Value → Prop} {previous w : Option Value} {v : Value}

theorem Latest.congr (h : Latest comes previous n w)
    (hc : ∀ k v, k < n → (comes k v ↔ comes' k v)) : Latest comes' previous n w := by
  cases h with
  | value hj hv hlast =>
    have hlast' : ∀ k w, _ < k → k < n → ¬ comes' k w := fun k w hk hkn h =>
      hlast k w hk hkn ((hc k w hkn).mpr h)
    exact .value hj ((hc _ _ hj).mp hv) hlast'
  | none hnone => exact .none fun k w hk h => hnone k w hk ((hc k w hk).mpr h)

theorem Latest.succ (h : Latest comes previous n w) (hn : ∀ v, ¬ comes n v) :
    Latest comes previous (n + 1) w := by
  have hkn {k : Nat} (hk : k < n + 1) (hv : ∃ v, comes k v) : k < n := by
    apply Nat.lt_of_le_of_ne (Nat.le_of_lt_succ hk)
    rintro rfl
    obtain ⟨v, hv⟩ := hv
    exact hn v hv
  cases h with
  | value hj hv hlast =>
    exact .value (Nat.lt_succ_of_lt hj) hv fun k w hjk hk h => hlast k w hjk (hkn hk ⟨w, h⟩) h
  | none hnone => exact .none fun k w hk h => hnone k w (hkn hk ⟨w, h⟩) h

theorem latest_results (results : List Result) (previous : Option Value) (n : Nat) :
    Latest (fun k v => results[k]?.bind Result.value? = some v) previous n
      (((results.take n).reverse.findSome? Result.value?).or previous) := by
  induction n with
  | zero => exact .none fun k _ hk => absurd hk (Nat.not_lt_zero k)
  | succ n ih =>
    rw [List.take_add_one, List.reverse_append, List.findSome?_append]
    cases hr : results[n]? with
    | none =>
      apply ih.succ
      intro v hv
      rw [hr] at hv
      cases hv
    | some r =>
      have hlast : (some r).toList.reverse.findSome? Result.value? = r.value? := by
        cases h : r.value? <;> simp [h]
      rw [hlast]
      cases hv : r.value? with
      | none =>
        apply ih.succ
        intro v hn
        rw [hr, Option.bind_some, hv] at hn
        cases hn
      | some v =>
        have hcomes : results[n]?.bind Result.value? = some v := by
          rw [hr, Option.bind_some, hv]
        exact .value (Nat.lt_succ_self n) hcomes fun k _ hnk hk => absurd hk (Nat.not_lt.mpr hnk)

theorem Turn.unique {e' : Expr} {t' : Sheet} (h : Turn slots s i slot e t)
    (h' : Turn slots s i slot e' t') : e = e' ∧ t = t' := by
  obtain ⟨hp, hr, hs, he⟩ := h
  obtain ⟨⟨after, ho⟩, hr', -, he'⟩ := h'
  rw [List.append_assoc, List.singleton_append] at ho
  obtain rfl := before_unique hp ho.symm
  rw [hr] at hr'
  rw [he] at he'
  cases hr'
  cases he'
  exact ⟨rfl, rfl⟩

/-- A slot comes to one outcome. -/
theorem Comes.unique {o o' : Except Failure Value} (h : Comes slots s i slot o)
    (h' : Comes slots s i slot o') : o = o' := by
  have hturn {e : Expr} {t : Sheet} {f : Failure} (ht : Turn slots s i slot e t) :
      slot.parsed ≠ .error f := by
    intro hf
    have he := ht.expr_eq
    rw [Slot.expr?, hf] at he
    cases he
  cases h with
  | unparsed hf =>
    cases h' with
    | unparsed hf' =>
      rw [hf] at hf'
      cases hf'
      rfl
    | turn ht => exact absurd hf (hturn ht)
  | turn ht ho =>
    cases h' with
    | unparsed hf => exact absurd hf (hturn ht)
    | turn ht' ho' =>
      obtain ⟨rfl, rfl⟩ := ht.unique ht'
      rw [ho] at ho'
      cases ho'
      rfl

/-- The slot at an index comes to a value. -/
def Succeeds (slots : List Slot) (s : Sheet) (i : Nat) (v : Value) : Prop :=
  ∃ slot, slots[i]? = some slot ∧ Comes slots s i slot (.ok v)

/-- The slot at an index has been evaluated, or has failed by its text. -/
def Settles (slots : List Slot) (s : Sheet) (i : Nat) : Prop :=
  ∃ slot o, slots[i]? = some slot ∧ Comes slots s i slot o

theorem progress_settled {before : List Nat} (hp : before <+: (s.plan slots).order)
    (hr : progress slots s before = (.ok results, t)) (hs : slots[i]? = some slot)
    (hi : i ∈ before) :
    ∃ r o, results[i]? = some r ∧ r.outcome = some o ∧ Comes slots s i slot o := by
  obtain ⟨r, hget, hbelongs⟩ := progress_belongs hp hr hs
  cases ho : r.outcome with
  | none => exact (hbelongs.settled (.inl hi) ho).elim
  | some o => exact ⟨r, o, hget, ho, hbelongs.comes o ho⟩

theorem progress_succeeds {before : List Nat} (hp : before <+: (s.plan slots).order)
    (hr : progress slots s before = (.ok results, t)) (hi : i ∈ before) :
    results[i]?.bind Result.value? = some v ↔ Succeeds slots s i v := by
  have hlt : i < slots.length := (mem_plan_order s).mp (hp.subset hi)
  obtain ⟨r, o, hget, ho, hcomes⟩ := progress_settled hp hr (List.getElem?_eq_getElem hlt) hi
  have hvalue : results[i]?.bind Result.value? = o.toOption := by
    rw [hget, Option.bind_some, Result.value?, ho]
    rfl
  rw [hvalue]
  constructor
  · intro h
    cases o with
    | error f => cases h
    | ok v' =>
      cases h
      exact ⟨_, List.getElem?_eq_getElem hlt, hcomes⟩
  · intro ⟨slot, hs, h⟩
    rw [List.getElem?_eq_getElem hlt] at hs
    cases hs
    rw [hcomes.unique h]
    rfl

theorem progress_latest {before : List Nat} (hp : before <+: (s.plan slots).order)
    (hr : progress slots s before = (.ok results, t)) (hbefore : ∀ j < n, j ∈ before) (u : Sheet) :
    Latest (Succeeds slots s) previous n
      ((u.bindAnswer (results.take n) previous).assigned.get? answerName) := by
  rw [bindAnswer, store_get?, if_pos rfl]
  exact (latest_results results previous n).congr fun k v hk => progress_succeeds hp hr
    (hbefore k hk)

theorem not_defines_answer (hnone : ∀ slot ∈ slots, slot.target ≠ some answerName) (k : Nat) :
    ¬ Defines (slots.map Slot.slotNames) k answerName := by
  intro h
  obtain ⟨slot, hs, ht⟩ := defines_iff.mp h
  exact hnone slot (List.mem_of_getElem? hs) ht

theorem definesAnswer_eq_false (hnone : ∀ slot ∈ slots, slot.target ≠ some answerName) :
    definesAnswer slots = false := by
  rw [definesAnswer, List.any_eq_false]
  intro slot hs
  simpa using hnone slot hs

theorem exists_before_reader (hnone : ∀ slot ∈ slots, slot.target ≠ some answerName)
    (hs : slots[i]? = some slot) (hread : answerName ∈ slot.names) (s : Sheet) :
    ∃ before after, (s.plan slots).order = before ++ i :: after ∧ ∀ j < i, j ∈ before := by
  have hreads : answerName ∈ reads (slots.map Slot.slotNames) i := by
    rw [reads, List.getElem?_map, hs]
    exact hread
  obtain ⟨before, after, ho⟩ := List.append_of_mem (mem_order.mpr (lt_of_mem_reads hreads))
  exact ⟨before, after, ho,
    fun j hj => before_answer_reader (not_defines_answer hnone) hreads ho hj⟩

theorem Turn.latest (h : Turn slots s i slot e t)
    (hnone : ∀ slot ∈ slots, slot.target ≠ some answerName) (hread : answerName ∈ slot.names) :
    (∀ j < i, Settles slots s j) ∧
      Latest (Succeeds slots s) (s.assigned.get? answerName) i (t.assigned.get? answerName) := by
  cases h with
  | @intro before results u hp hr hs =>
    obtain ⟨front, after, ho, hfront⟩ := exists_before_reader hnone hs hread s
    obtain rfl := before_unique hp ho
    have hprefix : before <+: (s.plan slots).order := (List.prefix_append _ _).trans hp
    obtain ⟨hi, -⟩ := List.getElem?_eq_some_iff.mp hs
    constructor
    · intro j hj
      have hget := List.getElem?_eq_getElem (hj.trans hi)
      obtain ⟨r, o, -, -, hcomes⟩ := progress_settled hprefix hr hget (hfront j hj)
      exact ⟨_, o, hget, hcomes⟩
    · rw [definesAnswer_eq_false hnone, readyFor, if_pos ⟨hread, rfl⟩]
      exact progress_latest hprefix hr hfront u

/-- Where no slot defines the last answer, slots evaluated as a batch leave the value of the last
one that succeeds. -/
theorem evaluateSlots_latest {shown : List Result}
    (hnone : ∀ slot ∈ slots, slot.target ≠ some answerName)
    (h : evaluateSlots slots s = (.ok shown, t)) :
    Latest (Succeeds slots s) (s.assigned.get? answerName) slots.length
      (t.assigned.get? answerName) := by
  obtain ⟨results, u, hrun, -, rfl⟩ := evaluateSlots_eq_ok h
  have hlatest : Latest (Succeeds slots s) (s.assigned.get? answerName) slots.length
      ((u.bindAnswer (results.take slots.length) (s.assigned.get? answerName)).assigned.get?
        answerName) :=
    progress_latest (List.prefix_refl _) hrun (fun _ => (mem_plan_order s).mpr) u
  rw [← progress_length hrun, List.take_length] at hlatest
  rw [definesAnswer_eq_false hnone, ← progress_length hrun]
  exact hlatest

/-- Where no slot defines the last answer, a slot that reads it comes to its turn when all slots
before it in input order have been settled, and sees the value of the last one of them that
succeeded, or else what the batch began with; and the batch leaves the value of the last slot that
succeeded. -/
theorem answer_latest (items : List Item) (s s₁ : Sheet) (slots : List Slot)
    (hslots : Sheet.slots items s = (.ok slots, s₁))
    (hnone : ∀ slot ∈ slots, slot.target ≠ some answerName) :
    (∀ i slot, slots[i]? = some slot → answerName ∈ slot.names →
      (∃ before after, (s₁.plan slots).order = before ++ i :: after ∧ ∀ j < i, j ∈ before) ∧
      ∀ e t, Turn slots s₁ i slot e t → (∀ j < i, Settles slots s₁ j) ∧
        Latest (Succeeds slots s₁) (s.assigned.get? answerName) i (t.assigned.get? answerName)) ∧
    ∀ shown t, batch items s = (.ok shown, t) →
      Latest (Succeeds slots s₁) (s.assigned.get? answerName) slots.length
        (t.assigned.get? answerName) := by
  obtain ⟨hs₁, -⟩ := slots_eq_ok hslots
  rw [← hs₁.assigned]
  constructor
  · intro i slot hs hread
    exact ⟨exists_before_reader hnone hs hread s₁, fun e t ht => ht.latest hnone hread⟩
  · intro shown t h
    obtain ⟨slots', s₁', hslots', h⟩ := batch_eq_ok h
    rw [hslots] at hslots'
    cases hslots'
    exact evaluateSlots_latest hnone h

def reordered : List Item := [{ value := "y=x" }, { value := "x=3" }, { value := "\\ans+1" }]

def reorderedSlots : List Slot :=
  [⟨{ value := "y=x" }, .ok (.assign "y" (.name "x"))⟩,
   ⟨{ value := "x=3" }, .ok (.assign "x" (.literal { value := 3, text := "3" }))⟩,
   ⟨{ value := "\\ans+1" },
     .ok (.binary (.arithmetic .add) (.name "ans") (.literal { value := 1, text := "1" }))⟩]

theorem reordered_batch_isOk : (batch reordered {}).1.isOk = true := by
  decide +kernel

theorem reordered_answer_latest : ∃ shown t, batch reordered {} = (.ok shown, t) ∧
    (∃ before after, (plan {} reorderedSlots).order = before ++ 2 :: after ∧ ∀ j < 2, j ∈ before) ∧
    Latest (Succeeds reorderedSlots {}) none reorderedSlots.length
      (t.assigned.get? answerName) := by
  have hslots : Sheet.slots reordered {} = (.ok reorderedSlots, {}) := rfl
  have hnone : ∀ slot ∈ reorderedSlots, slot.target ≠ some answerName := by decide +kernel
  obtain ⟨hreader, hbatch⟩ := answer_latest reordered {} {} reorderedSlots hslots hnone
  have hok := reordered_batch_isOk
  rcases hrun : batch reordered {} with ⟨r, t⟩
  rw [hrun] at hok
  cases r with
  | error f => cases hok
  | ok shown =>
    have hread : answerName ∈ reorderedSlots[2].names := by decide +kernel
    exact ⟨shown, t, rfl, (hreader 2 _ rfl hread).1, hbatch shown t hrun⟩

end UnitSheet.Sheet
