import UnitSheet.Proofs.Plan.Insertion
import UnitSheet.Proofs.Sheet.Outcome

namespace UnitSheet.Sheet

open Update UnitSheet.Computation Plan

variable {items : List Item} {item : Item} {slots : List Slot} {slot : Slot} {s t s' t' : Sheet}
variable {results : List Result} {previous : Option Value} {answer : Bool} {f : Failure} {p i : Nat}
variable {e : Expr}

/-- A run that ends like another one up to a change of its result, on a sheet that differs in
nothing but the journal. -/
structure Mirrors {ε α β : Type} (g : α → β) (r : Except ε α × Sheet)
    (r' : Except ε β × Sheet) : Prop where
  result : r'.1 = r.1.map g
  alike : Alike r.2 r'.2

theorem Mirrors.bind {ε α β α' β' : Type} {g : α → β} {g' : α' → β'} {m : Update ε α}
    {m' : Update ε β}
    {k : α → Update ε α'} {k' : β → Update ε β'} (hm : Mirrors g (m s) (m' s'))
    (hk : ∀ a t t', m s = (.ok a, t) → Alike t t' → Mirrors g' (k a t) (k' (g a) t')) :
    Mirrors g' ((m >>= k) s) ((m' >>= k') s') := by
  obtain ⟨hr, ha⟩ := hm
  rcases hs : m s with ⟨r, t⟩
  rcases hs' : m' s' with ⟨r', t'⟩
  rw [hs, hs'] at hr ha
  obtain rfl : r' = r.map g := hr
  cases r with
  | ok a =>
    rw [bind_ok hs, bind_ok hs']
    exact hk a t t' hs ha
  | error e =>
    rw [bind_error hs, bind_error hs']
    exact ⟨rfl, ha⟩

def unparsed (item : Item) (f : Failure) : Slot := ⟨item, .error f⟩

theorem unparsed_slotNames (item : Item) (f : Failure) : (unparsed item f).slotNames = idle := rfl

theorem parses_unparsed (h : s.parse item = .error (.failure f)) :
    Parses s item (unparsed item f) := ⟨rfl, h⟩

theorem slotsFrom_mirrors (m n : Nat) (h : Alike s s') :
    Mirrors id (slotsFrom m items s) (slotsFrom n items s') := by
  induction items generalizing m n s s' with
  | nil => exact ⟨rfl, h⟩
  | cons item items ih =>
    rcases parses_or_fault s item with ⟨slot, hp⟩ | ⟨f, hf⟩
    · have hnote := (noteParsed_alike m slot s).symm.trans (h.trans (noteParsed_alike n slot s'))
      rw [slotsFrom_cons hp, slotsFrom_cons (hp.of_sameScope h.toSameScope)]
      apply (ih (m + 1) (n + 1) hnote).bind
      intro rest t t' _ ht
      exact ⟨rfl, ht⟩
    · rw [slotsFrom_cons_fault hf, slotsFrom_cons_fault ((h.toSameScope.parse_eq item).trans hf)]
      exact ⟨rfl, h⟩

theorem slotsFrom_insertIdx (m n : Nat) (h : Alike s s') (hf : s.parse item = .error (.failure f))
    (hp : p ≤ items.length) :
    Mirrors (·.insertIdx p (unparsed item f)) (slotsFrom m items s)
      (slotsFrom n (items.insertIdx p item) s') := by
  induction p generalizing items m n s s' with
  | zero =>
    have hparses := (parses_unparsed hf).of_sameScope h.toSameScope
    have hnote := h.trans (noteParsed_alike n (unparsed item f) s')
    rw [List.insertIdx_zero, slotsFrom_cons hparses, ← bind_pure (slotsFrom m items)]
    apply (slotsFrom_mirrors m (n + 1) hnote).bind
    intro rest t t' _ ht
    exact ⟨rfl, ht⟩
  | succ p ih =>
    cases items with
    | nil => cases hp
    | cons a items =>
      rw [List.insertIdx_succ_cons]
      rcases parses_or_fault s a with ⟨slot, hparses⟩ | ⟨g, hg⟩
      · have hnote := (noteParsed_alike m slot s).symm.trans (h.trans (noteParsed_alike n slot s'))
        have hf' : (noteParsed m slot s).parse item = .error (.failure f) := by
          rw [(noteParsed_alike m slot s).toSameScope.parse_eq, hf]
        rw [slotsFrom_cons hparses, slotsFrom_cons (hparses.of_sameScope h.toSameScope)]
        apply (ih (m + 1) (n + 1) hnote hf' (Nat.le_of_succ_le_succ hp)).bind
        intro rest t t' _ ht
        exact ⟨rfl, ht⟩
      · rw [slotsFrom_cons_fault hg, slotsFrom_cons_fault ((h.toSameScope.parse_eq a).trans hg)]
        exact ⟨rfl, h⟩

theorem slotAt?_shift : slotAt? (slots.insertIdx p slot) (shift p i) = slotAt? slots i := by
  rw [slotAt?, slotAt?, getElem?_insertIdx_shift]

theorem slotAt?_unparsed (slots : List Slot) (item : Item) (f : Failure) (p : Nat) :
    slotAt? (slots.insertIdx p (unparsed item f)) p = none := by
  cases h : slotAt? (slots.insertIdx p (unparsed item f)) p with
  | none => rfl
  | some q =>
    obtain ⟨slot, e⟩ := q
    obtain ⟨hslot, he⟩ := slotAt?_eq_some.mp h
    obtain rfl := eq_of_getElem?_insertIdx_self hslot
    cases he

theorem definesAnswer_insertIdx (slots : List Slot) (item : Item) (f : Failure) (p : Nat) :
    definesAnswer (slots.insertIdx p (unparsed item f)) = definesAnswer slots := by
  rw [definesAnswer, definesAnswer, any_insertIdx]
  rfl

theorem value?_unparsed (item : Item) (f : Failure) :
    (Result.ofSlot (unparsed item f)).value? = none := rfl

theorem bindAnswer_congr {earlier earlier' : List Result} (h : Alike s s')
    (hvalues : earlier'.filterMap Result.value? = earlier.filterMap Result.value?) :
    Alike (s.bindAnswer earlier previous) (s'.bindAnswer earlier' previous) := by
  have hlast : earlier'.reverse.findSome? Result.value? =
      earlier.reverse.findSome? Result.value? := by
    rw [← List.head?_filterMap, ← List.head?_filterMap, List.filterMap_reverse,
      List.filterMap_reverse, hvalues]
  refine ⟨⟨h.nesting, h.depth, h.constants⟩, ?_⟩
  simp only [bindAnswer, store, hlast, h.assigned]

theorem readyFor_congr {earlier earlier' : List Result} (slot : Slot) (h : Alike s s')
    (hvalues : earlier'.filterMap Result.value? = earlier.filterMap Result.value?) :
    Alike (readyFor slot earlier previous answer s)
      (readyFor slot earlier' previous answer s') := by
  rw [readyFor, readyFor]
  split
  · exact bindAnswer_congr h hvalues
  · exact h

theorem withOutcome_shift (results : List Result) (r : Result) (o : Except Failure Value) :
    withOutcome (results.insertIdx p r)
      (shift p i) o = (withOutcome results i o).insertIdx p r := by
  apply ext_shift p
  · intro j
    rw [getElem?_insertIdx_shift, withOutcome, withOutcome, List.getElem?_modify,
      List.getElem?_modify, getElem?_insertIdx_shift]
    simp only [(shift_injective p).eq_iff]
  · rw [withOutcome, List.getElem?_modify_ne _ _ (shift_ne p i), List.getElem?_insertIdx_self,
      List.getElem?_insertIdx_self, withOutcome, List.length_modify]

/-- A slot settles alike at any index and among any results. -/
theorem settle_shift (h : Alike s s') (slot : Slot) (e : Expr) (r : Result) :
    Mirrors (·.insertIdx p r) (settle slot e i results s)
      (settle slot e (shift p i) (results.insertIdx p r) s') := by
  obtain ⟨hr, ha⟩ := blind_evaluateParsed slot.item e s s' h
  rcases hs : evaluateParsed slot.item e s with ⟨o, t⟩
  rcases hs' : evaluateParsed slot.item e s' with ⟨o', t'⟩
  rw [hs, hs'] at hr ha
  obtain rfl : o' = o := hr
  have hnote (o : Except Failure Value) :
      Alike (noteOutcome i o t) (noteOutcome (shift p i) o t') :=
    (Alike.record t _).symm.trans (ha.trans (.record t' _))
  rcases o' with (f | f) | v
  · rw [settle_failure hs, settle_failure hs', withOutcome_shift]
    exact ⟨rfl, hnote (.error f)⟩
  · rw [settle_fault hs, settle_fault hs']
    exact ⟨rfl, ha⟩
  · rw [settle_ok hs, settle_ok hs', withOutcome_shift]
    exact ⟨rfl, hnote (.ok v)⟩

theorem settleNext_shift (h : Alike s s') :
    Mirrors (·.insertIdx p (Result.ofSlot (unparsed item f)))
      (settleNext slots previous answer results i s)
      (settleNext (slots.insertIdx p (unparsed item f)) previous answer
        (results.insertIdx p (Result.ofSlot (unparsed item f))) (shift p i) s') := by
  cases hat : slotAt? slots i with
  | none =>
    have hat' : slotAt? (slots.insertIdx p (unparsed item f)) (shift p i) = none :=
      slotAt?_shift.trans hat
    rw [settleNext_none hat, settleNext_none hat']
    exact ⟨rfl, h⟩
  | some q =>
    obtain ⟨slot, e⟩ := q
    obtain ⟨hs, he⟩ := slotAt?_eq_some.mp hat
    have hs' : (slots.insertIdx p (unparsed item f))[shift p i]? = some slot := by
      rw [getElem?_insertIdx_shift, hs]
    rw [settleNext_some hs he, settleNext_some hs' he]
    apply settle_shift
    apply readyFor_congr slot h
    exact filterMap_take_insertIdx (value?_unparsed item f) results p i

theorem settleAll_shift (h : Alike s s') (order : List Nat) :
    Mirrors (·.insertIdx p (Result.ofSlot (unparsed item f)))
      (settleAll slots previous answer order results s)
      (settleAll (slots.insertIdx p (unparsed item f)) previous answer (order.map (shift p))
        (results.insertIdx p (Result.ofSlot (unparsed item f))) s') := by
  induction order generalizing results s s' with
  | nil => exact ⟨rfl, h⟩
  | cons i order ih =>
    rw [settleAll, settleAll, List.map_cons, List.foldlM_cons, List.foldlM_cons]
    apply (settleNext_shift h).bind
    intro results t t' _ ht
    exact ih ht

theorem settleAll_unparsed (before after : List Nat) :
    settleAll (slots.insertIdx p (unparsed item f)) previous answer (before ++ p :: after) results =
      settleAll (slots.insertIdx p (unparsed item f)) previous answer
        (before ++ after) results := by
  have hpass (results : List Result) :
      settleNext (slots.insertIdx p (unparsed item f)) previous answer results p =
        pure results := by
    rw [settleNext, slotAt?_unparsed]
  rw [settleAll, settleAll, List.foldlM_append, List.foldlM_append]
  apply congrArg
  funext results
  rw [List.foldlM_cons, hpass, pure_bind]

theorem isDisplayLeaf_shift (names : List SlotNames) (p i : Nat) :
    isDisplayLeaf (names.insertIdx p idle) (shift p i) = isDisplayLeaf names i := by
  rw [isDisplayLeaf, isDisplayLeaf, getElem?_insertIdx_shift]
  cases names[i]? with
  | none => rfl
  | some slot =>
    have hread : (slot.names.any fun x => some x ≠ slot.target &&
          (names.insertIdx p idle).any fun other => other.target = some x) =
        slot.names.any fun x => some x ≠ slot.target && names.any fun other => other.target =
          some x := by
      congr 1
      funext x
      rw [any_insertIdx rfl]
    have hreader : (slot.target.any fun x =>
          ((names.insertIdx p idle).eraseIdx (shift p i)).any fun other => x ∈ other.names) =
        slot.target.any fun x => (names.eraseIdx i).any fun other => x ∈ other.names := by
      congr 1
      funext x
      rw [any_eraseIdx_insertIdx rfl]
    dsimp only
    rw [hread, hreader]

theorem displayed_insertIdx (slots : List Slot) (results : List Result) (item : Item) (f : Failure)
    (p : Nat) :
    displayed (slots.insertIdx p (unparsed item f))
      (results.insertIdx p (Result.ofSlot (unparsed item f))) =
      (displayed slots results).insertIdx p (Result.ofSlot (unparsed item f)) := by
  have hexact : (Result.ofSlot (unparsed item f)).exact = Result.ofSlot (unparsed item f) := rfl
  apply ext_shift p
  · intro i
    rw [displayed_getElem?, getElem?_insertIdx_shift, getElem?_insertIdx_shift, displayed_getElem?,
      List.map_insertIdx, unparsed_slotNames, isDisplayLeaf_shift]
  · rw [displayed_getElem?, List.getElem?_insertIdx_self, List.getElem?_insertIdx_self, displayed,
      List.length_mapIdx]
    by_cases hp : p ≤ results.length
    · rw [if_pos hp, Option.map_some, hexact, ite_self]
    · rw [if_neg hp]
      rfl

theorem order_unparsed (h : SameScope s s') (item : Item) (f : Failure) (hp : p ≤ slots.length) :
    ∃ before after, (s'.plan (slots.insertIdx p (unparsed item f))).order = before ++ p :: after ∧
      before ++ after = (s.plan slots).order.map (shift p) := by
  rw [h.plan_eq, plan, List.map_insertIdx, unparsed_slotNames]
  apply order_insertIdx
  rwa [List.length_map]

theorem evaluateSlots_unparsed (h : Alike s s') (item : Item) (f : Failure)
    (hp : p ≤ slots.length) :
    Mirrors (·.insertIdx p (Result.ofSlot (unparsed item f))) (evaluateSlots slots s)
      (evaluateSlots (slots.insertIdx p (unparsed item f)) s') := by
  obtain ⟨before, after, horder, hshift⟩ := order_unparsed h.toSameScope item f hp
  have hnote := (noteCycle_alike (s.plan slots).stuck s).symm.trans
    (h.trans (noteCycle_alike (s'.plan (slots.insertIdx p (unparsed item f))).stuck s'))
  rw [evaluateSlots_eq, evaluateSlots_eq, definesAnswer_insertIdx, List.map_insertIdx, horder,
    settleAll_unparsed, hshift, h.assigned]
  apply (settleAll_shift hnote _).bind
  intro results t t' hrun ht
  have hresults : results.length = slots.length := progress_length hrun
  have hvalues := filterMap_insertIdx (value?_unparsed item f) (l := results) (hresults ▸ hp)
  refine ⟨?_, ?_⟩
  · cases definesAnswer slots <;> exact congrArg Except.ok
      (displayed_insertIdx slots results item f p)
  · cases definesAnswer slots with
    | true => exact ht
    | false => exact bindAnswer_congr ht hvalues

/-- An item that cannot be parsed fails by itself: wherever it is inserted into a batch, the other
items run in the order in which they ran, with the same results, and the batch leaves the same
variables. -/
theorem batch_insertIdx (items : List Item) (item : Item) (p : Nat) (s : Sheet) (f : Failure)
    (hp : p ≤ items.length) (hf : s.parse item = .error (.failure f)) :
    (∀ slots s₁, Sheet.slots items s = (.ok slots, s₁) → ∃ s₁' before after,
      Sheet.slots (items.insertIdx p item) s = (.ok (slots.insertIdx p (unparsed item f)), s₁') ∧
      (s₁'.plan (slots.insertIdx p (unparsed item f))).order = before ++ p :: after ∧
      before ++ after = (s₁.plan slots).order.map (shift p)) ∧
    (batch (items.insertIdx p item) s).1 =
      (batch items s).1.map (·.insertIdx p (Result.ofSlot (unparsed item f))) ∧
    Alike (batch items s).2 (batch (items.insertIdx p item) s).2 := by
  have hslots := slotsFrom_insertIdx 0 0 (.refl s) hf hp
  have hlen {slots : List Slot} {s₁ : Sheet} (h : Sheet.slots items s = (.ok slots, s₁)) :
      p ≤ slots.length := by
    rwa [← (slots_eq_ok h).2.length_eq]
  constructor
  · intro slots s₁ h
    obtain ⟨hr, ha⟩ := hslots
    rw [Sheet.slots] at h
    rw [h] at hr ha
    obtain ⟨before, after, horder⟩ := order_unparsed ha.toSameScope item f (hlen h)
    exact ⟨_, before, after, Prod.ext hr rfl, horder⟩
  · have hbatch : Mirrors (·.insertIdx p (Result.ofSlot (unparsed item f))) (batch items s)
        (batch (items.insertIdx p item) s) := by
      apply hslots.bind
      intro slots t t' h ht
      exact evaluateSlots_unparsed ht item f (hlen h)
    exact ⟨hbatch.result, hbatch.alike⟩

def circular : List Item :=
  [{ value := "a=b" }, { value := "b=a" }, { value := "7" }, { value := "\\ans+1" }]

def unfinished : Item := { value := "1+" }

theorem circular_batch_isOk : (batch circular {}).1.isOk = true := by
  decide +kernel

theorem circular_insertIdx : ∃ f shown shown', Sheet.parse {} unfinished = .error (.failure f) ∧
    (batch circular {}).1 = .ok shown ∧
    (batch (circular.insertIdx 1 unfinished) {}).1 = .ok shown' ∧
    shown' = shown.insertIdx 1 (Result.ofSlot (unparsed unfinished f)) ∧
    (batch (circular.insertIdx 1 unfinished) {}).2.assigned = (batch circular {}).2.assigned := by
  have hf :
      Sheet.parse {} unfinished = .error (.failure (.parse ⟨.unexpectedEnd, 2, some "1+"⟩)) := rfl
  obtain ⟨-, hresult, halike⟩ := batch_insertIdx circular unfinished 1 {} _ (by decide) hf
  have hok := circular_batch_isOk
  cases hshown : (batch circular {}).1 with
  | error f =>
    rw [hshown] at hok
    cases hok
  | ok shown =>
    rw [hshown] at hresult
    exact ⟨_, shown, _, hf, rfl, hresult, rfl, halike.assigned⟩

end UnitSheet.Sheet
