import UnitSheet.Proofs.Sheet.Batch
import UnitSheet.Proofs.Sheet.Supply

namespace UnitSheet.Sheet

open UnitSheet.Computation Plan Relation Update

variable {slots slots' : List Slot} {slot d : Slot} {s t u final : Sheet} {i j : Nat} {x : String}
variable {v : Value} {e : Expr} {results results' : List Result} {before after : List Nat}

/-- What a slot depends on: constants, names that no slot defines, its own name, and the names of
the slots that supply it, directly or through others. -/
def supplied (constants : Bindings) (slots : List Slot) (slot : Slot) : Access where
  reads x := constants.contains x = true ∨
    ∀ d ∈ slots, d.target = some x → ReflTransGen (Supplies constants slots) d slot
  writes _ := False

def outcome? : Except Stop Value → Option (Except Failure Value)
  | .ok v => some (.ok v)
  | .error (.failure f) => some (.error f)
  | .error (.fault _) => none

/-- The sheet on which all other slots have been settled, and the own name of the slot is as before
the batch. -/
def around (slot : Slot) (s final : Sheet) : Sheet :=
  match slot.target with
  | some x => final.store x (s.assigned.get? x)
  | none => final

def resultOn (t : Sheet) (slot : Slot) : Result :=
  match slot.expr? with
  | some e => { Result.ofSlot slot with outcome := outcome? (t.frame e).run.1 }
  | none => Result.ofSlot slot

/-- The names that no slot defines are as before the batch, and what slots have stored depends on
nothing but what they depend on. -/
structure Keeping (slots : List Slot) (s t : Sheet) : Prop extends SameScope s t where
  unchanged : ∀ x, (∀ d ∈ slots, d.target ≠ some x) → t.assigned.get? x = s.assigned.get? x
  keeps : ∀ d ∈ slots, ∀ x v, d.target = some x → t.assigned.get? x = some v →
    v.KeepsTo (supplied s.constants slots d)

theorem around_get? (slot : Slot) (s final : Sheet) (x : String) :
    (around slot s final).assigned.get? x =
      if slot.target = some x then s.assigned.get? x else final.assigned.get? x := by
  rw [around]
  cases h : slot.target with
  | none => rfl
  | some y =>
    rw [store_get?]
    by_cases hx : x = y
    · simp [hx]
    · simp [hx, Ne.symm hx]

theorem around_sameScope (slot : Slot) (s final : Sheet) :
    SameScope final (around slot s final) := by
  rw [around]
  cases slot.target with
  | none => exact .refl final
  | some x => exact ⟨rfl, rfl, rfl⟩

theorem keepsTo_supplied_of_outside (h : v.KeepsTo (outside slots)) :
    v.KeepsTo (supplied s.constants slots slot) :=
  h.mono (fun _ hx => .inr fun d hd ht => (hx d hd ht).elim) fun _ hw => hw

theorem keepsTo_supplied_trans (hd : ReflTransGen (Supplies s.constants slots) d slot)
    (h : v.KeepsTo (supplied s.constants slots d)) :
    v.KeepsTo (supplied s.constants slots slot) := by
  refine h.mono (fun x hx => ?_) fun _ hw => hw
  rcases hx with hc | hx
  · exact .inl hc
  · exact .inr fun d' hd' ht => (hx d' hd' ht).trans hd

theorem supplied_reads (hunique : (slots.filterMap Slot.target).Nodup) (hs : slot ∈ slots)
    (he : slot.expr? = some e) (hx : Expr.Free x e) :
    (supplied s.constants slots slot).reads x := by
  have hread : x ∈ slot.names := by
    rw [Slot.names, he]
    exact Expr.mem_names.mpr hx
  cases hc : s.constants.contains x with
  | true => exact .inl hc
  | false =>
    refine .inr fun d hd ht => ?_
    by_cases hown : slot.target = some x
    · rw [target_unique hunique hd hs ht hown]
    · exact .single (.intro hd hs hread hc ht hown)

/-- What a slot depends on keeps to that. -/
theorem Keeping.agree (h : SingleDefinitions slots s) (hk : Keeping slots s t) (slot : Slot) :
    Agree (supplied s.constants slots slot) s.constants t.assigned t.assigned := by
  refine ⟨fun _ _ => rfl, fun x v hx hv => ?_⟩
  rw [globals] at hv
  cases hc : s.constants.get? x with
  | some w =>
    rw [hc] at hv
    cases hv
    exact keepsTo_supplied_of_outside (h.constants x _ hc)
  | none =>
    rw [hc] at hv
    rcases hx with hconst | hx
    · rw [Bindings.contains, hc] at hconst
      cases hconst
    · by_cases hdef : ∃ d ∈ slots, d.target = some x
      · obtain ⟨d, hd, ht⟩ := hdef
        exact keepsTo_supplied_trans (hx d hd ht) (hk.keeps d hd x v ht hv)
      · have hnone : ∀ d ∈ slots, d.target ≠ some x := fun d hd ht => hdef ⟨d, hd, ht⟩
        exact keepsTo_supplied_of_outside (h.assigned x v ((hk.unchanged x hnone).symm.trans hv))

theorem run_agree (h : SingleDefinitions slots s) (ht : SameScope s t) (hu : SameScope s u)
    (hs : slot ∈ slots) (he : slot.expr? = some e)
    (hagree : Agree (supplied s.constants slots slot) s.constants t.assigned u.assigned) :
    ∃ r, (t.frame e).run = (r, e.stored r t.assigned) ∧
      (u.frame e).run = (r, e.stored r u.assigned) ∧
      ∀ v, r = .ok v → v.KeepsTo (supplied s.constants slots slot) := by
  have htf : t.frame e = ⟨(s.depth + 1).toNat, s.scope, e, t.assigned⟩ := by
    rw [frame, ht.scope_eq, ht.depth]
  have huf : u.frame e = ⟨(s.depth + 1).toNat, s.scope, e, u.assigned⟩ := by
    rw [frame, hu.scope_eq, hu.depth]
  rw [htf, huf]
  exact evalWithin_root (s := s.scope) _ (fun _ hw => hw) (fun _ => rfl) (h.roots slot hs e he)
    (fun x hx => supplied_reads h.unique hs he hx) hagree

theorem settleNext_of_run {r : Except Stop Value} {b : Bindings} {o : Except Failure Value}
    {previous : Option Value} {answer : Bool} (h : SingleDefinitions slots s)
    (hs : slots[i]? = some slot)
    (he : slot.expr? = some e) (hrun : (t.frame e).run = (r, b)) (ho : outcome? r = some o) :
    settleNext slots previous answer results i t =
      (.ok (withOutcome results i o), noteOutcome i o { t with assigned := b }) := by
  have hmem := List.mem_of_getElem? hs
  have heval : evaluateParsed slot.item e t = (r, { t with assigned := b }) := by
    rw [evaluateParsed_of_blank (h.plain slot hmem), evaluate_eq, hrun]
  rw [settleNext_some hs he, readyFor_of_not_mem (h.answer slot hmem)]
  rcases r with (f | f) | v
  · cases ho
    exact settle_failure heval
  · cases ho
  · cases ho
    exact settle_ok heval

theorem settleNext_eq_ok {previous : Option Value} {answer : Bool} (h : SingleDefinitions slots s)
    (hs : slots[i]? = some slot) (he : slot.expr? = some e)
    (hstep : settleNext slots previous answer results i t = (.ok results', u)) :
    ∃ o, outcome? (t.frame e).run.1 = some o ∧ u.assigned = (t.frame e).run.2 ∧ SameScope t u := by
  have hmem := List.mem_of_getElem? hs
  rcases hrun : (t.frame e).run with ⟨r, b⟩
  cases ho : outcome? r with
  | some o =>
    rw [settleNext_of_run h hs he hrun ho] at hstep
    cases hstep
    exact ⟨o, rfl, rfl, ⟨rfl, rfl, rfl⟩⟩
  | none =>
    have heval : evaluateParsed slot.item e t = (r, { t with assigned := b }) := by
      rw [evaluateParsed_of_blank (h.plain slot hmem), evaluate_eq, hrun]
    rw [settleNext_some hs he, readyFor_of_not_mem (h.answer slot hmem)] at hstep
    rcases r with (f | f) | v
    · cases ho
    · rw [settle_fault heval] at hstep
      cases hstep
    · cases ho

theorem target_eq (he : slot.expr? = some e) : slot.target = e.target? := by
  rw [Slot.target, he]
  rfl

theorem SingleDefinitions.keeping (h : SingleDefinitions slots s) (ht : Alike s t) :
    Keeping slots s t where
  toSameScope := ht.toSameScope
  unchanged x _ := by rw [ht.assigned]
  keeps d _ x v _ hv := keepsTo_supplied_of_outside (h.assigned x v (ht.assigned ▸ hv))

theorem Keeping.of_settleNext {previous : Option Value} {answer : Bool}
    (h : SingleDefinitions slots s)
    (hk : Keeping slots s t)
    (hstep : settleNext slots previous answer results i t = (.ok results', u)) : Keeping slots s u ∧
      ∀ x, ¬ Defines (slots.map Slot.slotNames) i x → u.assigned.get? x = t.assigned.get? x := by
  cases hat : slotAt? slots i with
  | none =>
    rw [settleNext_none hat] at hstep
    cases hstep
    exact ⟨hk, fun _ _ => rfl⟩
  | some p =>
    obtain ⟨slot, e⟩ := p
    obtain ⟨hs, he⟩ := slotAt?_eq_some.mp hat
    have hmem := List.mem_of_getElem? hs
    obtain ⟨o, -, hu, hscope⟩ := settleNext_eq_ok h hs he hstep
    obtain ⟨r, hrun, -, hr⟩ := run_agree h hk.toSameScope hk.toSameScope hmem he (hk.agree h slot)
    rw [hrun] at hu
    have hother : ∀ x, ¬ Defines (slots.map Slot.slotNames) i x →
        u.assigned.get? x = t.assigned.get? x := by
      intro x hx
      have hne : e.target? ≠ some x := fun ht =>
        hx (defines_iff.mpr ⟨slot, hs, (target_eq he).trans ht⟩)
      rw [hu, Expr.stored_get?_of_ne hne]
    refine ⟨⟨hk.toSameScope.trans hscope, fun x hx => ?_, fun d hd x v ht hv => ?_⟩, hother⟩
    · rw [hother x fun hdef => ?_, hk.unchanged x hx]
      obtain ⟨slot', hs', ht'⟩ := defines_iff.mp hdef
      exact hx slot' (List.mem_of_getElem? hs') ht'
    · by_cases hdef : Defines (slots.map Slot.slotNames) i x
      · obtain ⟨slot', hs', ht'⟩ := defines_iff.mp hdef
        obtain rfl := Option.some.inj (hs.symm.trans hs')
        obtain rfl := target_unique h.unique hd hmem ht ht'
        cases r with
        | ok w =>
          rw [hu, Expr.stored_get?_ok ((target_eq he).symm.trans ht)] at hv
          cases hv
          exact hr _ rfl
        | error f =>
          rw [hu, Expr.stored_error] at hv
          exact hk.keeps _ hd x v ht hv
      · rw [hother x hdef] at hv
        exact hk.keeps d hd x v ht hv

theorem Keeping.of_settleAll {previous : Option Value} {answer : Bool} {rest : List Nat}
    (h : SingleDefinitions slots s) (hk : Keeping slots s t)
    (hrun : settleAll slots previous answer rest results t = (.ok results', u)) :
    Keeping slots s u ∧
      ∀ x, (∀ j ∈ rest, ¬ Defines (slots.map Slot.slotNames) j x) →
        u.assigned.get? x = t.assigned.get? x := by
  refine foldlM_ok_invariant (I := fun _ u => Keeping slots s u ∧
    ∀ x, (∀ j ∈ rest, ¬ Defines (slots.map Slot.slotNames) j x) →
      u.assigned.get? x = t.assigned.get? x)
    hrun ⟨hk, fun _ _ => rfl⟩ fun before j r w r' w' hp _ hw hstep => ?_
  obtain ⟨hk', hother⟩ := Keeping.of_settleNext h hw.1 hstep
  refine ⟨hk', fun x hx => ?_⟩
  rw [hother x (hx j (hp.subset (by simp))), hw.2 x hx]

/-- The names of the slots that have been settled have their final values, the others their first
ones. -/
structure Settled (slots : List Slot) (s final : Sheet) (before : List Nat) (t : Sheet) : Prop where
  done : ∀ j ∈ before, ∀ x, Defines (slots.map Slot.slotNames) j x →
    t.assigned.get? x = final.assigned.get? x
  remaining : ∀ x, (∀ j ∈ before, ¬ Defines (slots.map Slot.slotNames) j x) →
    t.assigned.get? x = s.assigned.get? x

theorem Settled.snoc (ht : Settled slots s final before t)
    (hdone : ∀ x, Defines (slots.map Slot.slotNames) i x →
    u.assigned.get? x = final.assigned.get? x)
    (hother : ∀ x, ¬ Defines (slots.map Slot.slotNames) i x →
    u.assigned.get? x = t.assigned.get? x) : Settled slots s final (before ++ [i]) u where
  done j hj x hdef := by
    by_cases hi : Defines (slots.map Slot.slotNames) i x
    · exact hdone x hi
    · rcases List.mem_append.mp hj with hj | hj
      · rw [hother x hi, ht.done j hj x hdef]
      · exact (hi (List.mem_singleton.mp hj ▸ hdef)).elim
  remaining x hx := by
    rw [hother x (hx i (by simp)), ht.remaining x fun j hj => hx j (List.mem_append_left _ hj)]

/-- A slot finds on its turn what it depends on as it finds it around it at last. -/
theorem Settled.agree (h : SingleDefinitions slots s) (hk : Keeping slots s final)
    (hs : slots[i]? = some slot) (ho : (s.plan slots).order = before ++ i :: after)
    (ht : Settled slots s final before t) :
    Agree (supplied s.constants slots slot) s.constants
      (around slot s final).assigned t.assigned := by
  have hmem := List.mem_of_getElem? hs
  have haround : Keeping slots s (around slot s final) := by
    refine ⟨hk.toSameScope.trans (around_sameScope slot s final), fun x hx => ?_,
      fun d hd x v hdt hv => ?_⟩
    · rw [around_get?, if_neg (hx slot hmem), hk.unchanged x hx]
    · rw [around_get?] at hv
      split at hv
      · exact keepsTo_supplied_of_outside (h.assigned x v hv)
      · exact hk.keeps d hd x v hdt hv
  refine ⟨fun x hx => ?_, (haround.agree h slot).keeps⟩
  rw [globals, globals]
  cases hc : s.constants.get? x with
  | some v => rfl
  | none =>
    have hsupply : ∀ d ∈ slots, d.target = some x →
        ReflTransGen (Supplies s.constants slots) d slot := by
      rcases hx with hconst | hx
      · rw [Bindings.contains, hc] at hconst
        cases hconst
      · exact hx
    change (around slot s final).assigned.get? x = t.assigned.get? x
    rw [around_get?]
    by_cases hown : slot.target = some x
    · have hi : i ∉ before := by
        have hn := order_nodup s.constants (slots.map Slot.slotNames)
        change (s.plan slots).order.Nodup at hn
        rw [ho, List.nodup_append] at hn
        exact fun hi => hn.2.2 i hi i List.mem_cons_self rfl
      rw [if_pos hown, ht.remaining x fun j hj hdef => ?_]
      exact hi (index_unique h.unique hdef (defines_iff.mpr ⟨slot, hs, hown⟩) ▸ hj)
    · rw [if_neg hown]
      by_cases hdef : ∃ d ∈ slots, d.target = some x
      · obtain ⟨d, hd, hdt⟩ := hdef
        have hne : d ≠ slot := fun heq => hown (heq ▸ hdt)
        have hpath := (reflTransGen_iff_eq_or_transGen.mp (hsupply d hd hdt)).resolve_left hne.symm
        obtain ⟨j, hj, hjpath⟩ := exists_index_of_path h.unique h.answer hpath hs
        exact (ht.done j (h.acyclic.path hjpath ho) x (defines_iff.mpr ⟨d, hj, hdt⟩)).symm
      · have hnone : ∀ d ∈ slots, d.target ≠ some x := fun d hd hdt => hdef ⟨d, hd, hdt⟩
        rw [hk.unchanged x hnone, ht.remaining x fun j _ hj => ?_]
        obtain ⟨d, hd, hdt⟩ := defines_iff.mp hj
        exact hnone d (List.mem_of_getElem? hd) hdt

theorem stored_around (he : slot.expr? = some e) (hx : slot.target = some x)
    (ht : t.assigned.get? x = s.assigned.get? x) (r : Except Stop Value) :
    (e.stored r t.assigned).get? x = (e.stored r (around slot s final).assigned).get? x := by
  cases r with
  | ok v =>
    have htarget := (target_eq he).symm.trans hx
    rw [Expr.stored_get?_ok htarget, Expr.stored_get?_ok htarget]
  | error f => rw [Expr.stored_error, Expr.stored_error, around_get?, if_pos hx, ht]

/-- A sheet on which every definition has the value that its slot gives there. -/
structure Solves (slots : List Slot) (s final : Sheet) : Prop extends Keeping slots s final where
  own : ∀ slot ∈ slots, ∀ e, slot.expr? = some e → ∀ x, slot.target = some x →
    final.assigned.get? x = ((around slot s final).frame e).run.2.get? x
  outcome : ∀ slot ∈ slots, ∀ e, slot.expr? = some e →
    ∃ o, outcome? ((around slot s final).frame e).run.1 = some o

theorem progress_keeping (h : SingleDefinitions slots s)
    (hr : progress slots s before = (.ok results, t)) :
    Keeping slots s t ∧ ∀ x, (∀ j ∈ before, ¬ Defines (slots.map Slot.slotNames) j x) →
      t.assigned.get? x = s.assigned.get? x := by
  have hnote := noteCycle_alike (s.plan slots).stuck s
  obtain ⟨hk, hother⟩ := (h.keeping hnote).of_settleAll h hr
  exact ⟨hk, fun x hx => (hother x hx).trans (congrArg (·.get? x) hnote.assigned)⟩

theorem settled_of_progress (h : SingleDefinitions slots s) {rest : List Nat}
    (ho : (s.plan slots).order = before ++ rest) (hr : progress slots s before = (.ok results, t))
    (hrest : settleAll slots (s.assigned.get? answerName) (definesAnswer slots) rest results t
      = (.ok results', final)) : Settled slots s final before t := by
  obtain ⟨hk, hremaining⟩ := progress_keeping h hr
  refine ⟨fun j hj x hdef => ?_, hremaining⟩
  refine ((hk.of_settleAll h hrest).2 x fun k hk hdef' => ?_).symm
  have hn := order_nodup s.constants (slots.map Slot.slotNames)
  change (s.plan slots).order.Nodup at hn
  rw [ho, List.nodup_append] at hn
  exact hn.2.2 j hj k hk (index_unique h.unique hdef hdef')

/-- A batch that returns has come to a solution. -/
theorem solves_of_progress (h : SingleDefinitions slots s)
    (hr : progress slots s (s.plan slots).order = (.ok results, final)) : Solves slots s final := by
  obtain ⟨hkeeping, -⟩ := progress_keeping h hr
  have hturn : ∀ slot ∈ slots, ∀ e, slot.expr? = some e →
      (∃ o, outcome? ((around slot s final).frame e).run.1 = some o) ∧
        ∀ x, slot.target = some x →
          final.assigned.get? x = ((around slot s final).frame e).run.2.get? x := by
    intro slot hmem e he
    obtain ⟨i, hi⟩ := List.getElem?_of_mem hmem
    have hplanned : i ∈ (s.plan slots).order :=
      (mem_plan_order s).mpr (List.getElem?_eq_some_iff.mp hi).1
    obtain ⟨before, after, ho⟩ := List.append_of_mem hplanned
    rw [ho] at hr
    obtain ⟨r₀, t, hbefore, hrest⟩ := progress_append.mp hr
    have hsettled := settled_of_progress h ho hbefore hrest
    rw [settleAll, List.foldlM_cons, bind_eq_ok_iff] at hrest
    obtain ⟨r₁, u, hstep, hafter⟩ := hrest
    have ht := (progress_keeping h hbefore).1
    obtain ⟨r, hrun, hrun', -⟩ := run_agree h
      (hkeeping.toSameScope.trans (around_sameScope slot s final)) ht.toSameScope hmem he
      (hsettled.agree h hkeeping hi ho)
    obtain ⟨o, hout, hu, -⟩ := settleNext_eq_ok h hi he hstep
    rw [hrun'] at hout hu
    refine ⟨⟨o, by rw [hrun]; exact hout⟩, fun x hx => ?_⟩
    have hdef : Defines (slots.map Slot.slotNames) i x := defines_iff.mpr ⟨slot, hi, hx⟩
    have hlast := ((ht.of_settleNext h hstep).1.of_settleAll h hafter).2 x fun k hk hk' =>
      (not_mem_of_order ho).2 (index_unique h.unique hk' hdef ▸ hk)
    have hfirst := hsettled.remaining x fun k hk hk' =>
      (not_mem_of_order ho).1 (index_unique h.unique hk' hdef ▸ hk)
    rw [hlast, hu, hrun]
    exact stored_around he hx hfirst r
  exact ⟨hkeeping, fun slot hs e he => (hturn slot hs e he).2,
    fun slot hs e he => (hturn slot hs e he).1⟩

/-- The results when the slots at some indices have been settled on a solution. -/
def resultsAt (slots : List Slot) (s final : Sheet) (before : List Nat) : List Result :=
  slots.mapIdx fun i slot =>
    if i ∈ before then resultOn (around slot s final) slot else Result.ofSlot slot

theorem resultsAt_nil : resultsAt slots s final [] = slots.map Result.ofSlot := by
  apply List.ext_getElem?
  intro i
  simp [resultsAt]

theorem resultsAt_snoc {g : Result → Result} (hi : i ∉ before)
    (hg : ∀ slot, slots[i]? = some slot →
    g (Result.ofSlot slot) = resultOn (around slot s final) slot) :
    (resultsAt slots s final before).modify i g = resultsAt slots s final (before ++ [i]) := by
  apply List.ext_getElem?
  intro j
  rw [List.getElem?_modify, resultsAt, resultsAt, List.getElem?_mapIdx, List.getElem?_mapIdx]
  cases hj : slots[j]? with
  | none => rfl
  | some slot =>
    by_cases hij : i = j
    · subst hij
      simp [hi, hg slot hj]
    · simp [hij, Ne.symm hij]

theorem Settled.settleNext_none {previous : Option Value} {answer : Bool} (hi : i ∉ before)
    (hat : slotAt? slots i = none) (ht : Settled slots s final before t) :
    settleNext slots previous answer (resultsAt slots s final before) i t =
        (.ok (resultsAt slots s final (before ++ [i])), t) ∧
      Settled slots s final (before ++ [i]) t := by
  have hdef : ∀ x, ¬ Defines (slots.map Slot.slotNames) i x := by
    intro x hx
    obtain ⟨slot, e, hs, he, -⟩ := exists_slot_of_defines hx
    rw [expr?_of_slotAt?_eq_none hat hs] at he
    cases he
  have hresults : (resultsAt slots s final before).modify i id =
      resultsAt slots s final (before ++ [i]) := by
    apply resultsAt_snoc hi
    intro slot hs
    rw [resultOn, expr?_of_slotAt?_eq_none hat hs]
    rfl
  rw [List.modify_id] at hresults
  rw [Sheet.settleNext_none hat, hresults]
  exact ⟨rfl, ht.snoc (fun x hx => (hdef x hx).elim) fun _ _ => rfl⟩

theorem Solves.settleNext_some {previous : Option Value} {answer : Bool}
    (h : SingleDefinitions slots s)
    (hf : Solves slots s final) (ho : (s.plan slots).order = before ++ i :: after)
    (hscope : SameScope s t)
    (ht : Settled slots s final before t) (hs : slots[i]? = some slot) (he : slot.expr? = some e) :
    ∃ u, settleNext slots previous answer (resultsAt slots s final before) i t =
        (.ok (resultsAt slots s final (before ++ [i])), u) ∧
      SameScope s u ∧ Settled slots s final (before ++ [i]) u := by
  obtain ⟨hi, -⟩ := not_mem_of_order ho
  have hmem := List.mem_of_getElem? hs
  obtain ⟨r, hrun, hrun', -⟩ :=
    run_agree h (hf.toSameScope.trans (around_sameScope slot s final)) hscope
    hmem he (ht.agree h hf.toKeeping hs ho)
  obtain ⟨o, hout⟩ := hf.outcome slot hmem e he
  have hresults : withOutcome (resultsAt slots s final before) i o =
      resultsAt slots s final (before ++ [i]) := by
    apply resultsAt_snoc hi
    intro slot' hs'
    obtain rfl := Option.some.inj (hs.symm.trans hs')
    simp only [resultOn, he, hout]
  rw [hrun] at hout
  refine ⟨noteOutcome i o { t with assigned := e.stored r t.assigned },
    (settleNext_of_run h hs he hrun' hout).trans ?_, hscope.trans ⟨rfl, rfl, rfl⟩,
    ht.snoc (fun x hx => ?_) fun x hx => ?_⟩
  · rw [hresults]
  · obtain ⟨slot', hs', hx'⟩ := defines_iff.mp hx
    obtain rfl := Option.some.inj (hs.symm.trans hs')
    have hfirst := ht.remaining x fun k hk hk' => hi (index_unique h.unique hk' hx ▸ hk)
    rw [hf.own slot hmem e he x hx', hrun]
    exact stored_around he hx' hfirst r
  · refine Expr.stored_get?_of_ne (fun htarget => ?_) r t.assigned
    exact hx (defines_iff.mpr ⟨slot, hs, (target_eq he).trans htarget⟩)

theorem Solves.settleNext_ok {previous : Option Value} {answer : Bool}
    (h : SingleDefinitions slots s)
    (hf : Solves slots s final) (ho : (s.plan slots).order = before ++ i :: after)
    (hscope : SameScope s t) (ht : Settled slots s final before t) :
    ∃ u, settleNext slots previous answer (resultsAt slots s final before) i t =
        (.ok (resultsAt slots s final (before ++ [i])), u) ∧
      SameScope s u ∧ Settled slots s final (before ++ [i]) u := by
  cases hat : slotAt? slots i with
  | none =>
    obtain ⟨hi, -⟩ := not_mem_of_order ho
    obtain ⟨hstep, hsettled⟩ := ht.settleNext_none hi hat
    exact ⟨t, hstep, hscope, hsettled⟩
  | some p =>
    obtain ⟨hs, he⟩ := slotAt?_eq_some.mp hat
    exact hf.settleNext_some h ho hscope ht hs he

theorem Solves.progress_prefix (h : SingleDefinitions slots s) (hf : Solves slots s final)
    (hp : before <+: (s.plan slots).order) :
    ∃ t, progress slots s before = (.ok (resultsAt slots s final before), t) ∧ SameScope s t ∧
      Settled slots s final before t := by
  induction before using List.reverseRecOn with
  | nil =>
    have hnote := noteCycle_alike (s.plan slots).stuck s
    refine ⟨noteCycle (s.plan slots).stuck s, ?_, hnote.toSameScope, by simp, fun x _ => ?_⟩
    · rw [resultsAt_nil]
      rfl
    · rw [hnote.assigned]
  | append_singleton before i ih =>
    obtain ⟨t, hrun, hscope, ht⟩ := ih ((List.prefix_append _ _).trans hp)
    obtain ⟨after, ho⟩ := hp
    rw [List.append_assoc, List.singleton_append] at ho
    obtain ⟨u, hstep, hu, hsettled⟩ := hf.settleNext_ok h ho.symm hscope ht
    refine ⟨u, progress_append.mpr ⟨_, t, hrun, ?_⟩, hu, hsettled⟩
    rw [settleAll_singleton]
    exact hstep

theorem Solves.progress_order (h : SingleDefinitions slots s) (hf : Solves slots s final) :
    ∃ t, progress slots s (s.plan slots).order =
        (.ok (slots.map fun slot => resultOn (around slot s final) slot), t) ∧
      ∀ x, t.assigned.get? x = final.assigned.get? x := by
  obtain ⟨t, hrun, -, ht⟩ := hf.progress_prefix h (List.prefix_refl _)
  have hplanned {i : Nat} (hi : i < slots.length) : i ∈ (s.plan slots).order :=
    (mem_plan_order s).mpr hi
  refine ⟨t, ?_, fun x => ?_⟩
  · rw [hrun, resultsAt]
    have hresults : (slots.mapIdx fun i slot => if i ∈ (s.plan slots).order
        then resultOn (around slot s final) slot else Result.ofSlot slot) =
        slots.map fun slot => resultOn (around slot s final) slot := by
      apply List.ext_getElem?
      intro i
      rw [List.getElem?_mapIdx, List.getElem?_map]
      cases hi : slots[i]? with
      | none => rfl
      | some slot => simp [hplanned (List.getElem?_eq_some_iff.mp hi).1]
    rw [hresults]
  · by_cases hdef : ∃ j, Defines (slots.map Slot.slotNames) j x
    · obtain ⟨j, hj⟩ := hdef
      exact ht.done j (mem_order.mpr hj.lt) x hj
    · have hnone : ∀ d ∈ slots, d.target ≠ some x := by
        intro d hd hdt
        obtain ⟨j, hj⟩ := List.getElem?_of_mem hd
        exact hdef ⟨j, defines_iff.mpr ⟨d, hj, hdt⟩⟩
      rw [hf.unchanged x hnone, ht.remaining x fun j _ hj => hdef ⟨j, hj⟩]

theorem supplied_perm (hp : slots.Perm slots') (constants : Bindings) (slot : Slot) :
    supplied constants slots' slot = supplied constants slots slot := by
  have hsupplies : Supplies constants slots' = Supplies constants slots := by
    funext d r
    exact propext ⟨Sheet.supplies_perm hp.symm, Sheet.supplies_perm hp⟩
  simp only [supplied, hsupplies, hp.mem_iff]

/-- A solution does not depend on the order of the slots. -/
theorem Solves.perm (hf : Solves slots s final) (hp : slots.Perm slots') :
    Solves slots' s final where
  toSameScope := hf.toSameScope
  unchanged x hx := hf.unchanged x fun d hd => hx d (hp.mem_iff.mp hd)
  keeps d hd x v ht hv := by
    rw [supplied_perm hp]
    exact hf.keeps d (hp.mem_iff.mpr hd) x v ht hv
  own slot hs := hf.own slot (hp.mem_iff.mpr hs)
  outcome slot hs := hf.outcome slot (hp.mem_iff.mpr hs)

end UnitSheet.Sheet
