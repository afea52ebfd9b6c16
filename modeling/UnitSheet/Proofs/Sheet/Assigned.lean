import UnitSheet.Proofs.Evaluation.Log
import UnitSheet.Proofs.Expr.Inventory
import UnitSheet.Proofs.Sheet.Answer
import UnitSheet.Proofs.Sheet.Conversion
import UnitSheet.Proofs.Sheet.Failing
import UnitSheet.Proofs.Sheet.Operation

namespace UnitSheet.Sheet

open Update UnitSheet.Computation UnitSheet.Frame Plan

variable {items : List Item} {slots : List Slot} {slot : Slot} {s t u : Sheet} {i j n : Nat}
variable {e : Expr} {v : Value}
variable {x : String} {results results' shown : List Result} {comes : Nat → Value → Prop}
variable {previous w : Option Value}

theorem Latest.eq_some (h : Latest comes previous n w) (hi : i < n) (hv : comes i v)
    (hunique : ∀ v', comes i v' → v' = v) (hlast : ∀ k w, i < k → ¬ comes k w) : w = some v := by
  cases h with
  | @value j u hj hu hbehind =>
    rcases Nat.lt_trichotomy i j with hij | rfl | hji
    · exact (hlast j u hij hu).elim
    · rw [hunique u hu]
    · exact (hbehind i v hji hi hv).elim
  | none hnone => exact (hnone i v hi hv).elim

/-- On its turn a slot assigns a value to a name at its root. -/
inductive Assigned (slots : List Slot) (s : Sheet) (x : String) (i : Nat) : Value → Prop
  | intro {slot : Slot} {e : Expr} {t u : Sheet} {v : Value} (ht : Turn slots s i slot e t)
    (hx : e.target? = some x) (hv : evaluate e t = (.ok v, u)) : Assigned slots s x i v

theorem Assigned.defines (h : Assigned slots s x i v) : Defines (slots.map Slot.slotNames) i x := by
  obtain ⟨ht, hx, -⟩ := h
  refine defines_iff.mpr ⟨_, ht.slot_eq, ?_⟩
  rw [Slot.target, ht.expr_eq]
  exact hx

theorem Assigned.lt (h : Assigned slots s x i v) : i < slots.length := by
  have hlt := h.defines.lt
  rwa [List.length_map] at hlt

theorem Turn.assigned_iff (ht : Turn slots s i slot e t) :
    Assigned slots s x i v ↔ e.target? = some x ∧ ∃ u, evaluate e t = (.ok v, u) := by
  constructor
  · intro ⟨ht', hx, hv⟩
    obtain rfl := Option.some.inj (ht.slot_eq.symm.trans ht'.slot_eq)
    obtain ⟨rfl, rfl⟩ := ht.unique ht'
    exact ⟨hx, _, hv⟩
  · intro ⟨hx, u, hv⟩
    exact .intro ht hx hv

theorem Assigned.eq {y : Value} (h : Assigned slots s x i y) (ht : Turn slots s i slot e t)
    (hv : evaluate e t = (.ok v, u)) : y = v := by
  obtain ⟨-, w, hy⟩ := ht.assigned_iff.mp h
  rw [hv] at hy
  cases hy
  rfl

theorem not_assigned_of_slotAt?_eq_none (h : slotAt? slots i = none) :
    ¬ Assigned slots s x i v := by
  intro ⟨ht, _, _⟩
  have he := expr?_of_slotAt?_eq_none h ht.slot_eq
  rw [ht.expr_eq] at he
  cases he

theorem AssignsAtRoots.settle_assigned (h : AssignsAtRoots slots s x) (ht : Turn slots s i slot e t)
    (results : List Result) :
    (∃ v, Assigned slots s x i v ∧ (settle slot e i results t).2.assigned.get? x = some v) ∨
      (∀ v, ¬ Assigned slots s x i v) ∧ (settle slot e i results t).2.assigned.get? x =
      t.assigned.get? x := by
  by_cases hx : e.target? = some x
  · rcases hv : evaluate e t with ⟨stop | v, u⟩
    · have hnone (v : Value) : ¬ Assigned slots s x i v := by
        rw [ht.assigned_iff]
        rintro ⟨-, u', hv'⟩
        rw [hv] at hv'
        cases hv'
      refine .inr ⟨hnone, ?_⟩
      rw [(settle_alike slot e i results t).assigned, evaluateParsed, bind_error hv]
      exact evaluate_error_get? hv (h.slot slot (List.mem_of_getElem? ht.slot_eq) e ht.expr_eq)
        fun _ _ hk hc =>
        h.body _ (.intro ht .expression hk hc)
    · exact .inl ⟨v, .intro ht hx hv, h.settle_target ht hx hv results⟩
  · exact .inr ⟨fun v hv => hx (ht.assigned_iff.mp hv).1, h.settle_get? ht hx results⟩

theorem AssignsAtRoots.settleNext_assigned (h : AssignsAtRoots slots s x)
    (hanswer : x = answerName → definesAnswer slots = true) {before : List Nat}
    (hp : before ++ [i] <+: (s.plan slots).order) (hr : progress slots s before = (.ok results, t))
    (hstep : settleNext slots (s.assigned.get? answerName) (definesAnswer slots) results i t =
    (.ok results', u)) : (∃ v, Assigned slots s x i v ∧ u.assigned.get? x = some v) ∨
      (∀ v, ¬ Assigned slots s x i v) ∧ u.assigned.get? x = t.assigned.get? x := by
  cases hat : slotAt? slots i with
  | none =>
    rw [settleNext_none hat] at hstep
    cases hstep
    exact .inr ⟨fun v => not_assigned_of_slotAt?_eq_none hat, rfl⟩
  | some p =>
    obtain ⟨slot, e⟩ := p
    obtain ⟨hs, he⟩ := slotAt?_eq_some.mp hat
    rw [settleNext_some hs he] at hstep
    have hsettle := h.settle_assigned (.intro hp hr hs he) results
    rwa [hstep, readyFor_get? slot _ _ t hanswer] at hsettle

theorem Assigned.not_mem_of_lt {before : List Nat} {k : Nat} {y : Value}
    (h : Assigned slots s x i v)
    (hk : Assigned slots s x k y) (hik : i < k) (hp : before ++ [i] <+: (s.plan slots).order) :
    k ∉ before ++ [i] := by
  rw [List.mem_append, List.mem_singleton]
  rintro (hmem | rfl)
  · exact not_mem_of_later_definition h.defines hk.defines hik hp hmem
  · exact Nat.lt_irrefl _ hik

/-- As far as a batch has come, a name has the value that the last of its definitions has
assigned. -/
theorem AssignsAtRoots.progress_assigned (h : AssignsAtRoots slots s x)
    (hanswer : x = answerName → definesAnswer slots = true) {before : List Nat}
    (hp : before <+: (s.plan slots).order) (hr : progress slots s before = (.ok results, t)) :
    Latest (fun j v => j ∈ before ∧ Assigned slots s x j v) (s.assigned.get? x) slots.length
      (t.assigned.get? x) := by
  induction before using List.reverseRecOn generalizing results t with
  | nil =>
    cases hr
    rw [(noteCycle_alike _ s).assigned]
    exact .none fun k v _ hk => List.not_mem_nil hk.1
  | append_singleton before i ih =>
    obtain ⟨results', u, hr', hlast⟩ := progress_append.mp hr
    have hbefore := ih ((List.prefix_append _ _).trans hp) hr'
    rw [settleAll_singleton] at hlast
    rcases h.settleNext_assigned hanswer hp hr' hlast with ⟨v, hv, ht⟩ | ⟨hnone, ht⟩
    · have hi : i ∈ before ++ [i] := List.mem_append_right _ (List.mem_singleton_self i)
      rw [ht]
      exact .value hv.lt ⟨hi, hv⟩ fun k y hik _ hk => hv.not_mem_of_lt hk.2 hik hp hk.1
    · rw [ht]
      refine hbefore.congr fun k v _ => and_congr_left fun hv => ?_
      have hne : k ≠ i := fun hki => hnone v (hki ▸ hv)
      rw [List.mem_append, List.mem_singleton, or_iff_left hne]

theorem AssignsAtRoots.evaluateSlots_assigned (h : AssignsAtRoots slots s x) (hx : x ≠ answerName)
    (hbatch : evaluateSlots slots s = (.ok shown, t)) :
    Latest (Assigned slots s x) (s.assigned.get? x) slots.length (t.assigned.get? x) := by
  obtain ⟨results, u, hrun, -, rfl⟩ := evaluateSlots_eq_ok hbatch
  have hu := h.progress_assigned (fun hans => (hx hans).elim) (List.prefix_refl _) hrun
  have hend := hu.congr fun k v hk => and_iff_right ((mem_plan_order s).mpr hk)
  split
  · exact hend
  · rwa [bindAnswer_get? _ _ _ hx]

/-- The slot at an index succeeds, and none behind it does. -/
structure LastSuccess (shown : List Result) (i : Nat) : Prop where
  value : (shown[i]?.bind Result.value?).isSome = true
  last : ∀ k, i < k → shown[k]?.bind Result.value? = none

instance (shown : List Result) (i : Nat) : Decidable (LastSuccess shown i) :=
  decidable_of_iff
    ((shown[i]?.bind Result.value?).isSome = true ∧
      ∀ k < shown.length, i < k → (shown[k]?.bind Result.value?).isNone)
    ⟨fun ⟨hvalue, hlast⟩ => ⟨hvalue, fun k hk => by
      by_cases hlt : k < shown.length
      · exact Option.isNone_iff_eq_none.mp (hlast k hlt hk)
      · rw [List.getElem?_eq_none (Nat.not_lt.mp hlt)]
        rfl⟩,
     fun h => ⟨h.value, fun k _ hk => Option.isNone_iff_eq_none.mpr (h.last k hk)⟩⟩

theorem Isolated.isSome_iff {s₁ : Sheet} (h : Isolated items s slots s₁ shown) :
    (shown[i]?.bind Result.value?).isSome = true ↔ ∃ v, Succeeds slots s₁ i v := by
  constructor
  · intro hsome
    obtain ⟨w, hw⟩ := Option.isSome_iff_exists.mp hsome
    obtain ⟨r, hr, hw⟩ := Option.bind_eq_some_iff.mp hw
    obtain ⟨slot, o, hs, hcomes, ho⟩ := h.exists_slot hr
    rw [Result.value?, ho, Option.bind_some] at hw
    cases o with
    | error f => split at hw <;> cases hw
    | ok v => exact ⟨v, slot, hs, hcomes⟩
  · rintro ⟨v, slot, hs, hcomes⟩
    obtain ⟨r, o, hr, -, hcomes', ho⟩ := h.recorded i slot hs
    obtain rfl := hcomes.unique hcomes'
    rw [hr, Option.bind_some, Result.value?, ho]
    split <;> rfl

theorem Isolated.not_succeeds {s₁ : Sheet} (h : Isolated items s slots s₁ shown)
    (hi : LastSuccess shown i) (k : Nat) (v : Value) (hk : i < k) : ¬ Succeeds slots s₁ k v := by
  intro hv
  have hsome := h.isSome_iff.mpr ⟨v, hv⟩
  rw [hi.last k hk] at hsome
  cases hsome

theorem Succeeds.unique {v' : Value} (h : Succeeds slots s i v) (h' : Succeeds slots s i v') :
    v = v' := by
  obtain ⟨slot, hs, hcomes⟩ := h
  obtain ⟨slot', hs', hcomes'⟩ := h'
  obtain rfl := Option.some.inj (hs.symm.trans hs')
  exact Except.ok.inj (hcomes.unique hcomes')

theorem Succeeds.turn {v' : Value} (h : Succeeds slots s i v') (hs : slots[i]? = some slot) :
    ∃ e u v w, Turn slots s i slot e u ∧ evaluate e u = (.ok v, w) ∧
      Expressed slot.item w v v' := by
  obtain ⟨slot', hs', hcomes⟩ := h
  obtain rfl := Option.some.inj (hs.symm.trans hs')
  cases hcomes with
  | @turn e u t _ ht ho =>
    obtain ⟨v, w, hv, hw⟩ := evaluateParsed_eq_ok (attempt_eq_ok ho)
    exact ⟨e, u, v, w, ht, hv, hw⟩

theorem evaluate_name {y : String} (hd : (s.depth + 1).toNat ≠ 0)
    (hc : s.constants.contains y = false)
    (hy : s.assigned.get? y = some v) : evaluate (.name y) s = (.ok v, s) := by
  have hconst : s.constants.get? y = none :=
    Option.not_isSome_iff_eq_none.mp (by simpa [Bindings.contains] using hc)
  have hget : s.scope.get? s.assigned y = some v := by
    rw [Scope.get?, scope, hconst]
    exact hy
  have hrun : (s.frame (.name y)).run = (.ok v, s.assigned) := by
    obtain ⟨n, hn⟩ := Nat.exists_eq_succ_of_ne_zero hd
    rw [run, frame, hn]
    exact Evaluation.lookup_some hget
  rw [evaluate_eq, hrun]

theorem evaluate_stores (h : evaluate e s = (.ok v, t)) (hx : e.target? = some x) :
    (s.frame e).Stores x v := by
  obtain ⟨hv, -⟩ := Prod.mk.inj h
  exact stores_of_run_ok (Prod.ext hv rfl) hx

/-- What a batch leaves whose last success is a definition of a name: the last answer is the value
of the definition as it is shown, and the name has the value of its last definition that was
evaluated, which is the same definition unless a later one has failed in its conversion. -/
theorem answer_of_definition (items : List Item) (s s₁ t : Sheet) (slots : List Slot)
    (shown : List Result) (i : Nat)
    (slot : Slot) (x : String) (hbatch : batch items s = (.ok shown, t))
    (hslots : Sheet.slots items s = (.ok slots, s₁))
    (hnone : ∀ slot ∈ slots, slot.target ≠ some answerName)
    (hroots : AssignsAtRoots slots s₁ x) (hs : slots[i]? = some slot) (hx : slot.target = some x)
    (hi : LastSuccess shown i) :
    ∃ e u v w v', Turn slots s₁ i slot e u ∧ evaluate e u = (.ok v, w) ∧
      Expressed slot.item w v v' ∧ t.assigned.get? answerName = some v' ∧
      Latest (Assigned slots s₁ x) (s.assigned.get? x) slots.length (t.assigned.get? x) ∧
      ((∀ k y, i < k → ¬ Assigned slots s₁ x k y) → t.assigned.get? x = some v ∧
        (isBlankText slot.item.conversion = true →
          t.assigned.get? answerName = t.assigned.get? x)) ∧
      (s.constants.contains answerName = false → evaluate (.name answerName) t = (.ok v', t)) ∧
      ∀ y, t.assigned.get? x = some y → evaluate (.name x) t = (.ok y, t) := by
  obtain ⟨slots', s₁', hisolated⟩ := batch_isolated hbatch
  obtain ⟨slots'', s₁'', hslots', hrun⟩ := batch_eq_ok hbatch
  have heq := hisolated.slots_eq
  rw [hslots] at hslots' heq
  cases hslots'
  cases heq
  obtain ⟨v', hsucceeds⟩ := hisolated.isSome_iff.mp hi.value
  obtain ⟨e, u, v, w, ht, hv, hexpressed⟩ := hsucceeds.turn hs
  have hlt : i < slots.length := (List.getElem?_eq_some_iff.mp hs).1
  have hexpr : e.target? = some x := by
    rw [Slot.target, ht.expr_eq] at hx
    exact hx
  have hans : x ≠ answerName := fun h => hnone slot (List.mem_of_getElem? hs) (h ▸ hx)
  have hanswer : t.assigned.get? answerName = some v' :=
    (evaluateSlots_latest hnone hrun).eq_some hlt hsucceeds (fun _ h => h.unique hsucceeds)
      (hisolated.not_succeeds hi)
  have hlatest := hroots.evaluateSlots_assigned hans hrun
  -- The constants and the limits are the same on all sheets of the batch.
  obtain ⟨hs₁, -⟩ := slots_eq_ok hslots
  have hend : SameScope s t := by
    have h := batch_sameScope items s
    rwa [hbatch] at h
  have hturn : SameScope s u := hs₁.toSameScope.trans ht.sameScope
  have hstores := evaluate_stores hv hexpr
  have hdepth : (t.depth + 1).toNat ≠ 0 := by
    rw [hend.depth, ← hturn.depth]
    exact hstores.levels_ne_zero
  refine ⟨e, u, v, w, v', ht, hv, hexpressed, hanswer, hs₁.assigned ▸ hlatest, fun hbehind => ?_,
    fun hconst => ?_, fun y hy => ?_⟩
  · have hname : t.assigned.get? x = some v :=
      hlatest.eq_some hlt (.intro ht hexpr hv) (fun _ hy => hy.eq ht hv) hbehind
    refine ⟨hname, fun hb => ?_⟩
    rw [hanswer, hname, hexpressed.eq_of_blank hb]
  · exact evaluate_name hdepth (hend.constants ▸ hconst) hanswer
  · have hconst : t.constants.contains x = false := by
      rw [hend.constants, ← hturn.constants]
      exact hstores.assignable
    exact evaluate_name hdepth hconst hy

def converted : List Item := [{ value := "x=2500\\m", conversion := "\\km" }]

def convertedSlots : List Slot :=
  [⟨{ value := "x=2500\\m", conversion := "\\km" },
     .ok (.assign "x" (.mul (.literal { value := 2500, text := "2500" })
       (.literal { value := 1, dimension := { length := 1 }, text := "\\m" })))⟩]

theorem converted_run : (batch converted {}).1.isOk = true ∧
    LastSuccess ((batch converted {}).1.toOption.getD []) 0 := by
  decide +kernel

theorem converted_answer_of_definition : ∃ shown t e u v w v', batch converted {} = (.ok shown, t) ∧
    LastSuccess shown 0 ∧ AssignsAtRoots convertedSlots {} "x" ∧
    Turn convertedSlots {} 0 convertedSlots[0] e u ∧ evaluate e u = (.ok v, w) ∧
    Expressed convertedSlots[0].item w v v' ∧ t.assigned.get? answerName = some v' ∧
      t.assigned.get? "x" = some v := by
  obtain ⟨hok, hlast⟩ := converted_run
  obtain ⟨shown, hrun⟩ := run_of_isOk hok
  rw [hrun] at hlast
  have hslots : Sheet.slots converted {} = (.ok convertedSlots, {}) := rfl
  have hnone : ∀ slot ∈ convertedSlots, slot.target ≠ some answerName := by decide +kernel
  have hroots : AssignsAtRoots convertedSlots {} "x" :=
    assignsAtRoots_of_isFlat (by decide +kernel) (by decide +kernel) "x"
  obtain ⟨e, u, v, w, v', ht, hv, hexpressed, hanswer, -, hname, -⟩ :=
    answer_of_definition converted {} {} _ convertedSlots shown 0 _ "x" hrun hslots hnone hroots
      rfl rfl hlast
  refine ⟨shown, _, e, u, v, w, v', hrun, hlast, hroots, ht, hv, hexpressed, hanswer,
    (hname fun k y hk hy => ?_).1⟩
  have hlt : k < 1 := hy.lt
  omega

/-- Where no name is defined inside an expression or a conversion unit, a batch whose last success
assigns to a name leaves that name and the last answer with different values. -/
structure Disagrees (items : List Item) (s : Sheet) (slots : List Slot) (shown : List Result)
    (t : Sheet) (i : Nat) (x : String) : Prop where
  batch_eq : batch items s = (.ok shown, t)
  slots_eq : Sheet.slots items s = (.ok slots, s)
  constant : s.constants.contains answerName = false
  answer : ∀ slot ∈ slots, slot.target ≠ some answerName
  flat : ∀ slot ∈ slots, s.isFlat slot = true
  assigns : ∃ value, slots[i]?.bind Slot.expr? = some (.assign x value)
  last : LastSuccess shown i
  ne : t.assigned.get? answerName ≠ t.assigned.get? x

theorem exists_disagrees (hslots : Sheet.slots items s = (.ok slots, s))
    (hc : s.constants.contains answerName = false)
    (hanswer : ∀ slot ∈ slots, slot.target ≠ some answerName)
    (hflat : ∀ slot ∈ slots, s.isFlat slot = true)
    (hassigns : ∃ value, slots[i]?.bind Slot.expr? = some (.assign x value))
    (hrun : (batch items s).1.isOk = true ∧ LastSuccess ((batch items s).1.toOption.getD []) i ∧
      ((batch items s).2.assigned.get? answerName).map Value.render ≠
        ((batch items s).2.assigned.get? x).map Value.render) :
    ∃ shown t, Disagrees items s slots shown t i x := by
  obtain ⟨hok, hlast, hne⟩ := hrun
  obtain ⟨shown, hrun⟩ := run_of_isOk hok
  rw [hrun] at hlast
  exact ⟨shown, _, hrun, hslots, hc, hanswer, hflat, hassigns, hlast, fun h => hne (congrArg _ h)⟩

def redefined : List Item := [{ value := "x=1" }, { value := "x=2", conversion := "q" }]

def redefinedSlots : List Slot :=
  [⟨{ value := "x=1" }, .ok (.assign "x" (.literal { value := 1, text := "1" }))⟩,
   ⟨{ value := "x=2", conversion := "q" },
     .ok (.assign "x" (.literal { value := 2, text := "2" }))⟩]

def assigningSheet : Sheet :=
  { assigned := ({} : Bindings).insert "f" (.function "f" ["a"] (.assign "x" (.name "a"))) }

def assigning : List Item := [{ value := "y=x f(1)" }, { value := "x=2" }]

def assigningSlots : List Slot :=
  [⟨{ value := "y=x f(1)" },
     .ok (.assign "y" (.mul (.name "x") (.call "f" [.literal { value := 1, text := "1" }])))⟩,
   ⟨{ value := "x=2" }, .ok (.assign "x" (.literal { value := 2, text := "2" }))⟩]

/-- The last answer and the name differ by the conversion, by a later definition that has failed in
its own, and by an assignment in a function that is called later. -/
theorem answer_disagrees : (∃ shown t, Disagrees converted {} convertedSlots shown t 0 "x") ∧
    (∃ shown t, Disagrees redefined {} redefinedSlots shown t 0 "x") ∧
    ∃ shown t, Disagrees assigning assigningSheet assigningSlots shown t 1 "x" := by
  refine ⟨?_, ?_, ?_⟩
  · exact exists_disagrees rfl rfl (by decide +kernel) (by decide +kernel) ⟨_, rfl⟩
      (by decide +kernel)
  · exact exists_disagrees rfl rfl (by decide +kernel) (by decide +kernel) ⟨_, rfl⟩
      (by decide +kernel)
  · exact exists_disagrees rfl rfl (by decide +kernel) (by decide +kernel) ⟨_, rfl⟩
      (by decide +kernel)

end UnitSheet.Sheet
