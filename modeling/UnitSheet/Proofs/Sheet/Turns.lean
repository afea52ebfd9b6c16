import UnitSheet.Proofs.Sheet.Answer
import UnitSheet.Proofs.Sheet.Journal

namespace UnitSheet.Sheet

open Update UnitSheet.Computation Plan

variable {items : List Item} {slots : List Slot} {s t : Sheet} {i : Nat}
variable {results shown : List Result}

def told? : Event → Option (Nat × Except Failure Value)
  | .evaluated i v => some (i, .ok v)
  | .failed i f => some (i, .error f)
  | _ => none

def outcomes (s : Sheet) : List (Nat × Except Failure Value) := s.journal.filterMap told?

theorem outcomes_noteOutcome (i : Nat) (o : Except Failure Value) (s : Sheet) :
    (noteOutcome i o s).outcomes = s.outcomes ++ [(i, o)] := by
  cases o <;> exact List.filterMap_append

theorem outcomes_noteCycle (stuck : List Nat) (s : Sheet) :
    (noteCycle stuck s).outcomes = s.outcomes := by
  rw [noteCycle]
  split
  · rfl
  · rw [outcomes, List.filterMap_append]
    exact List.append_nil _

theorem outcomes_readyFor (slot : Slot) (earlier : List Result) (previous : Option Value)
    (answer : Bool) (s : Sheet) :
    (readyFor slot earlier previous answer s).outcomes = s.outcomes := by
  rw [outcomes, readyFor_journal, outcomes]

theorem outcomes_attempt {slot : Slot} {e : Expr} {o : Except Failure Value}
    (h : attempt (evaluateParsed slot.item e) s = (.ok o, t)) : t.outcomes = s.outcomes := by
  have htells := tells_attempt (tells_evaluateParsed slot.item e) s
  rw [h] at htells
  apply htells.filterMap_eq
  rintro _ ⟨_, _⟩
  rfl

/-- The evaluations of some slots one after the other, each with the outcome that evaluation and
conversion give on its turn. -/
structure TakesTurns (slots : List Slot) (s : Sheet) (before : List Nat)
    (turns : List (Nat × Except Failure Value)) : Prop where
  indices : turns.map Prod.fst = before.filter fun i => (slotAt? slots i).isSome
  outcome : ∀ i o, (i, o) ∈ turns → ∃ slot e u w, Turn slots s i slot e u ∧
    attempt (evaluateParsed slot.item e) u = (.ok o, w)

theorem progress_turns {before : List Nat} (hp : before <+: (s.plan slots).order)
    (hr : progress slots s before = (.ok results, t)) :
    ∃ turns, t.outcomes = s.outcomes ++ turns ∧ TakesTurns slots s before turns := by
  induction before using List.reverseRecOn generalizing results t with
  | nil =>
    cases hr
    exact ⟨[], by rw [outcomes_noteCycle, List.append_nil], rfl, by simp⟩
  | append_singleton before i ih =>
    obtain ⟨results', u, hr', hlast⟩ := progress_append.mp hr
    obtain ⟨turns, htold, hindices, houtcome⟩ := ih ((List.prefix_append _ _).trans hp) hr'
    rw [settleAll_singleton] at hlast
    cases hat : slotAt? slots i with
    | none =>
      rw [settleNext_none hat] at hlast
      cases hlast
      exact ⟨turns, htold, by rw [List.filter_append, hindices]; simp [hat], houtcome⟩
    | some p =>
      obtain ⟨slot, e⟩ := p
      obtain ⟨hs, he⟩ := slotAt?_eq_some.mp hat
      rw [settleNext_some hs he] at hlast
      obtain ⟨o, w, hrun, -, rfl⟩ := settle_eq_ok hlast
      refine ⟨turns ++ [(i, o)], ?_, ?_, fun j o' hmem => ?_⟩
      · rw [outcomes_noteOutcome, outcomes_attempt hrun, outcomes_readyFor, htold,
          List.append_assoc]
      · rw [List.map_append, List.filter_append, hindices]
        simp [hat]
      · rcases List.mem_append.mp hmem with hmem | hmem
        · exact houtcome j o' hmem
        · obtain ⟨rfl, rfl⟩ := Prod.mk.inj (List.mem_singleton.mp hmem)
          exact ⟨slot, e, _, w, .intro hp hr' hs he, hrun⟩

theorem filter_fst_eq_singleton {γ : Type} {l : List (Nat × γ)} {c : γ}
    (hn : (l.map Prod.fst).Nodup) (hc : (i, c) ∈ l) :
    l.filter (·.1 = i) = [(i, c)] := by
  induction l with
  | nil => cases hc
  | cons p l ih =>
    obtain ⟨hp, hn⟩ := List.nodup_cons.mp hn
    rcases List.mem_cons.mp hc with rfl | hc
    · have hrest : l.filter (·.1 = i) = [] := by
        simp only [List.filter_eq_nil_iff, decide_eq_true_eq]
        intro q hq hi
        exact hp (List.mem_map.mpr ⟨q, hq, hi⟩)
      rw [List.filter_cons_of_pos (by simp), hrest]
    · have hne : p.1 ≠ i := fun hi => hp (List.mem_map.mpr ⟨_, hc, hi.symm⟩)
      rw [List.filter_cons_of_neg (by simpa using hne), ih hn hc]

theorem evaluateSlots_target (h : evaluateSlots slots s = (.ok shown, t)) :
    shown.map Result.target = slots.map Slot.target := by
  obtain ⟨results, u, hrun, rfl, -⟩ := evaluateSlots_eq_ok h
  refine Eq.trans ?_ (progress_map (g := Result.target) (fun _ _ => rfl) hrun)
  apply List.ext_getElem?
  intro i
  rw [List.getElem?_map, List.getElem?_map, displayed_getElem?, Option.map_map]
  apply Option.map_congr
  intro r _
  exact apply_ite Result.target _ r r.exact |>.trans (ite_self _)

theorem evaluateSlots_turns (h : evaluateSlots slots s = (.ok shown, t)) :
    ∃ turns, t.outcomes = s.outcomes ++ turns ∧ TakesTurns slots s (s.plan slots).order turns := by
  obtain ⟨results, u, hrun, -, rfl⟩ := evaluateSlots_eq_ok h
  obtain ⟨turns, htold, hturns⟩ := progress_turns (List.prefix_refl _) hrun
  refine ⟨turns, ?_, hturns⟩
  cases definesAnswer slots <;> exact htold

theorem batch_turns {s₁ : Sheet} (h : batch items s = (.ok shown, t))
    (hslots : Sheet.slots items s = (.ok slots, s₁)) :
    shown.map Result.target = slots.map Slot.target ∧ ∃ turns, t.outcomes = s.outcomes ++ turns ∧
      TakesTurns slots s₁ (s₁.plan slots).order turns := by
  obtain ⟨slots', s₁', hslots', hbatch⟩ := batch_eq_ok h
  rw [hslots] at hslots'
  cases hslots'
  obtain ⟨turns, htold, hturns⟩ := evaluateSlots_turns hbatch
  have hparsing := tells_slotsFrom 0 items s
  rw [← Sheet.slots, hslots] at hparsing
  have hstart : s₁.outcomes = s.outcomes := by
    apply hparsing.filterMap_eq
    rintro _ ⟨_, _⟩
    rfl
  exact ⟨evaluateSlots_target hbatch, turns, hstart ▸ htold, hturns⟩

/-- A slot that is parsed has one turn in the order of the batch, with the outcome that it comes
to. -/
theorem TakesTurns.once {turns : List (Nat × Except Failure Value)} {slot : Slot} {e : Expr}
    {o : Except Failure Value}
    (h : TakesTurns slots s (s.plan slots).order turns) (hs : slots[i]? = some slot)
    (he : slot.expr? = some e)
    (ho : Comes slots s i slot o) : turns.filter (·.1 = i) = [(i, o)] := by
  have hn : (turns.map Prod.fst).Nodup := h.indices ▸ (order_nodup _ _).filter _
  have hi : i ∈ (s.plan slots).order := (mem_plan_order s).mpr (List.getElem?_eq_some_iff.mp hs).1
  have hmem : i ∈ turns.map Prod.fst := by
    rw [h.indices, List.mem_filter, slotAt?_eq_some.mpr ⟨hs, he⟩]
    exact ⟨hi, rfl⟩
  obtain ⟨⟨j, o'⟩, hturn, rfl⟩ := List.mem_map.mp hmem
  obtain ⟨slot', e', u, w, ht, hrun⟩ := h.outcome _ _ hturn
  obtain rfl := Option.some.inj (hs.symm.trans ht.slot_eq)
  rw [ho.unique (.turn ht hrun)]
  exact filter_fst_eq_singleton hn hturn

/-- How an item is settled in a batch: its text fails, and it is never evaluated, or it is evaluated
once, and what evaluation and conversion give is shown, with or without its significant figures. -/
inductive SettledOnce (s s₁ : Sheet) (slots : List Slot) (turns : List (Nat × Except Failure Value))
    (i : Nat) (item : Item) (r : Result) : Prop
  | unparsed {f : Failure} (hp : s.parse item = .error (.failure f)) (target : r.target = none)
      (outcome : r.outcome = some (.error f)) (never : ∀ o, (i, o) ∉ turns)
  | turn {e : Expr} {u w : Sheet} {o : Except Failure Value} (hp : s.parse item = .ok e)
      (target : r.target = e.target?) (ht : Turn slots s₁ i ⟨item, .ok e⟩ e u)
      (hrun : attempt (evaluateParsed item e) u = (.ok o, w))
      (once : turns.filter (·.1 = i) = [(i, o)])
      (outcome : r.outcome = some o ∨ r.outcome = some (o.map Value.exact))

theorem Parses.settledOnce {s₁ : Sheet} {item : Item} {slot : Slot}
    {turns : List (Nat × Except Failure Value)}
    {r : Result} {o : Except Failure Value} (h : Parses s item slot) (hs : slots[i]? = some slot)
    (hcomes : Comes slots s₁ i slot o) (hturns : TakesTurns slots s₁ (s₁.plan slots).order turns)
    (htarget : r.target = slot.target)
    (hshown : r.outcome = some o ∨ r.outcome = some (o.map Value.exact)) :
    SettledOnce s s₁ slots turns i item r := by
  have hcomes' := hcomes
  obtain ⟨rfl, hp⟩ := h
  cases slot with | mk item parsed =>
  cases parsed with
  | error f =>
    have hnever (o' : Except Failure Value) : (i, o') ∉ turns := by
      intro hmem
      obtain ⟨slot, e, u, w, ht, -⟩ := hturns.outcome i o' hmem
      obtain rfl := Option.some.inj (hs.symm.trans ht.slot_eq)
      cases ht.expr_eq
    cases hcomes with
    | unparsed hf =>
      cases hf
      exact .unparsed hp htarget (hshown.elim id id) hnever
    | turn ht => cases ht.expr_eq
  | ok e =>
    cases hcomes with
    | unparsed hf => cases hf
    | turn ht hrun =>
      cases ht.expr_eq
      exact .turn hp htarget ht hrun (hturns.once hs rfl hcomes') hshown

/-- A batch that returns has a result for each item, with a value or with a failure: the failure of
the text, or what the one evaluation of the item has come to. -/
theorem batch_settles_once (items : List Item) (s t : Sheet) (shown : List Result)
    (h : batch items s = (.ok shown, t)) :
    shown.length = items.length ∧ ∃ slots s₁ turns, Sheet.slots items s = (.ok slots, s₁) ∧
      t.outcomes = s.outcomes ++ turns ∧
      turns.map Prod.fst = ((s₁.plan slots).order.filter fun i => (slotAt? slots i).isSome) ∧
      ∀ i item, items[i]? = some item → ∃ r, shown[i]? = some r ∧ r.source = item.value ∧
        r.value?.isSome = r.failure?.isNone ∧ SettledOnce s s₁ slots turns i item r := by
  obtain ⟨slots, s₁, hisolated⟩ := batch_isolated h
  obtain ⟨htarget, turns, htold, hturns⟩ := batch_turns h hisolated.slots_eq
  refine ⟨hisolated.length_eq, slots, s₁, turns, hisolated.slots_eq, htold, hturns.indices,
    fun i item hi => ?_⟩
  obtain ⟨hlt, rfl⟩ := List.getElem?_eq_some_iff.mp hi
  have hlt' : i < slots.length := hisolated.parses.length_eq ▸ hlt
  have hs : slots[i]? = some slots[i] := List.getElem?_eq_getElem hlt'
  have hparses : Parses s items[i] slots[i] := hisolated.parses.get hlt hlt'
  generalize slots[i] = slot at hs hparses
  obtain ⟨r, o, hr, hsource, hcomes, hshown⟩ := hisolated.recorded i slot hs
  have hslot : r.target = slot.target := by
    have hi := congrArg (·[i]?) htarget
    rw [List.getElem?_map, List.getElem?_map, hr, hs] at hi
    exact Option.some.inj hi
  have houtcome : r.outcome = some o ∨ r.outcome = some (o.map Value.exact) := by
    split at hshown
    · exact .inl hshown
    · exact .inr hshown
  refine ⟨r, hr, hsource.trans (congrArg Item.value hparses.item_eq), ?_, ?_⟩
  · rcases houtcome with ho | ho <;> rw [Result.value?, Result.failure?, ho] <;> cases o <;> rfl
  · exact hparses.settledOnce hs hcomes hturns hslot houtcome

def untidy : List Item :=
  [{ value := "a=b" }, { value := "1+" }, { value := "b=a" }, { value := "y=x" },
    { value := "x=3" }]

theorem untidy_batch :
    (batch untidy {}).1.isOk = true ∧ (batch untidy {}).2.outcomes.map Prod.fst = [4, 3, 0, 2] := by
  decide +kernel

theorem untidy_settles_once : ∃ shown t slots s₁ r r', batch untidy {} = (.ok shown, t) ∧
    t.outcomes.map Prod.fst = [4, 3, 0, 2] ∧
    shown[1]? = some r ∧ SettledOnce {} s₁ slots t.outcomes 1 { value := "1+" } r ∧
    shown[3]? = some r' ∧ SettledOnce {} s₁ slots t.outcomes 3 { value := "y=x" } r' := by
  obtain ⟨hok, hindices⟩ := untidy_batch
  obtain ⟨shown, hrun⟩ := run_of_isOk hok
  obtain ⟨-, slots, s₁, turns, -, htold, -, hsettled⟩ := batch_settles_once untidy {} _ shown hrun
  obtain ⟨r, hr, -, -, hr'⟩ := hsettled 1 _ rfl
  obtain ⟨q, hq, -, -, hq'⟩ := hsettled 3 _ rfl
  obtain rfl : (batch untidy {}).2.outcomes = turns := htold
  exact ⟨shown, _, slots, s₁, r, q, hrun, hindices, hr, hr', hq, hq'⟩

end UnitSheet.Sheet
