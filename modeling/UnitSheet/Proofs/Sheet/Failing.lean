import UnitSheet.Proofs.Sheet.Outcome

namespace UnitSheet

open UnitSheet.Computation UnitSheet.Frame Relation

variable {b b' : Bindings} {P Q : Frame → Prop} {f g : Frame} {x : String} {v : Value}

/-- A name is bound as before, or to what one of some evaluations has stored under it. -/
def Bindings.ChangedBy (P : Frame → Prop) (b b' : Bindings) : Prop :=
  ∀ x, b'.get? x = b.get? x ∨ ∃ g v, P g ∧ g.Stores x v ∧ b'.get? x = some v

namespace Bindings.ChangedBy

theorem refl (P : Frame → Prop) (b : Bindings) : ChangedBy P b b := fun _ => .inl rfl

theorem mono (h : ChangedBy P b b') (hPQ : ∀ g x v, P g → g.Stores x v → Q g) :
    ChangedBy Q b b' := by
  intro x
  rcases h x with hx | ⟨g, v, hg, hs, hx⟩
  · exact .inl hx
  · exact .inr ⟨g, v, hPQ g x v hg hs, hs, hx⟩

theorem insert (h : ChangedBy P b b') (hg : P g) (hs : g.Stores x v) :
    ChangedBy P b (b'.insert x v) := by
  intro y
  rw [get?_insert]
  split
  · next hy => exact .inr ⟨g, v, hg, hy ▸ hs, rfl⟩
  · exact h y

theorem get?_eq (h : ChangedBy P b b') (hP : ∀ g, P g → g.expr.target? ≠ some x) :
    b'.get? x = b.get? x := by
  rcases h x with hx | ⟨g, v, hg, hs, -⟩
  · exact hx
  · exact absurd hs.target (hP g hg)

end Bindings.ChangedBy

open Bindings (ChangedBy)

theorem Frame.run_changedBy (f : Frame) : ChangedBy (Reaches f) f.assigned f.run.2 :=
  run_invariant_of_stores (.refl _ _) fun _ _ _ _ hg hs hb => hb.insert hg hs

theorem Frame.run_error_changedBy {stop : Stop} (h : f.run = (.error stop, b)) :
    ChangedBy (Inside f) f.assigned b := by
  have hrun := f.run_changedBy
  rw [h] at hrun
  apply hrun.mono
  intro g x v hg hs
  rcases reflTransGen_iff_eq_or_transGen.mp hg with rfl | hg
  · obtain ⟨b', hok⟩ := hs.run
    rw [h] at hok
    cases hok
  · exact hg

namespace Sheet

open Update

variable {item : Item} {e : Expr} {s t u : Sheet} {stop : Stop} {c : Expr}

/-- The evaluations for the unit that the value of an item is converted to. -/
inductive Converting (item : Item) (e : Expr) (s : Sheet) : Frame → Prop
  | intro {u : Sheet} {c : Expr} {g : Frame} (hc : Converts item e s u c)
    (hg : Reaches (u.frame c) g) : Converting item e s g

/-- An item that has been parsed fails in one of two ways, and leaves the variables that were stored
before. -/
inductive Fails (item : Item) (e : Expr) (s t : Sheet) : Prop
  | expression {stop : Stop} (h : evaluate e s = (.error stop, t))
      (hc : ChangedBy (Inside (s.frame e)) s.assigned t.assigned)
  | conversion {v : Value} {u : Sheet} (hv : evaluate e s = (.ok v, u))
      (hb : isBlankText item.conversion = false)
      (hc : ChangedBy (Converting item e s) u.assigned t.assigned)

theorem evaluate_error_changedBy (h : evaluate e s = (.error stop, t)) :
    ChangedBy (Inside (s.frame e)) s.assigned t.assigned := by
  obtain ⟨hr, rfl⟩ := Prod.mk.inj h
  exact run_error_changedBy (f := s.frame e) (Prod.ext hr rfl)

theorem convert_changedBy (hv : evaluate e s = (.ok v, u))
    (hb : isBlankText item.conversion = false) :
    ChangedBy (Converting item e s) u.assigned (convert item v u).2.assigned := by
  cases hp : Expr.parse item.conversion u.nesting with
  | error stop =>
    rw [convert_of_not_parsed hb hp]
    exact .refl _ _
  | ok c =>
    have hconverts : Converts item e s u c := .intro hv hb hp
    have hunit : ChangedBy (Converting item e s) u.assigned (evaluate c u).2.assigned :=
      (u.frame c).run_changedBy.mono fun _ _ _ hg _ => .intro hconverts hg
    rw [convert_of_parsed hb hp]
    apply bind_invariant
      (I := fun t : Sheet => ChangedBy (Converting item e s) u.assigned t.assigned) hunit
    intro w t _ ht
    rw [(quiet_express item.conversion v w t).assigned]
    exact ht

theorem evaluateParsed_fails (h : evaluateParsed item e s = (.error stop, t)) :
    Fails item e s t := by
  rcases bind_eq_error_iff.mp h with h | ⟨v, u, hv, h⟩
  · exact .expression h (evaluate_error_changedBy h)
  · cases hb : isBlankText item.conversion with
    | true =>
      rw [convert_of_blank hb] at h
      cases h
    | false =>
      have hconvert := convert_changedBy hv hb
      rw [h] at hconvert
      exact .conversion hv hb hconvert

theorem evaluate_error_get? (h : evaluate e s = (.error stop, t)) (he : ¬ e.AssignsBelow x)
    (hb : ∀ k l, Reaches (s.frame e) k → Calls k l → ¬ l.expr.Assigns x) :
    t.assigned.get? x = s.assigned.get? x :=
  (evaluate_error_changedBy h).get?_eq fun _ hg => Inside.target_ne hg he hb

theorem attempt_eq_error {ε : Type} {m : Update Stop ε} {f : Failure}
    (h : attempt m s = (.ok (.error f), t)) : m s = (.error (.failure f), t) := by
  rcases hm : m s with ⟨(f' | f') | a, u⟩ <;> rw [attempt, hm] at h <;> cases h
  rfl

theorem attempt_eq_ok {ε : Type} {m : Update Stop ε} {a : ε} (h : attempt m s = (.ok (.ok a), t)) :
    m s = (.ok a, t) := by
  rcases hm : m s with ⟨(f' | f') | a, u⟩ <;> rw [attempt, hm] at h <;> cases h
  rfl

/-- What a slot that ends in an error has done: nothing if its text was not parsed, and otherwise
its turn has failed. -/
theorem Comes.error {slots : List Slot} {i : Nat} {slot : Slot} {f : Failure}
    (h : Comes slots s i slot (.error f)) :
    slot.parsed = .error f ∨ ∃ e u w, Turn slots s i slot e u ∧
      evaluateParsed slot.item e u = (.error (.failure f), w) ∧ SameScope u w ∧
        Fails slot.item e u w := by
  cases h with
  | unparsed hf => exact .inl hf
  | @turn e t u _ ht ho =>
    have herror := attempt_eq_error ho
    have hscope := evaluateParsed_sameScope slot.item e t
    rw [herror] at hscope
    exact .inr ⟨e, t, u, ht, herror, hscope, evaluateParsed_fails herror⟩

theorem outcome_eq_error {r : Result} {o : Except Failure Value} {f : Failure}
    (hf : r.failure? = some f) (ho : r.outcome = some o) : o = .error f := by
  rw [Result.failure?, ho] at hf
  cases o with
  | ok v => cases hf
  | error f' =>
    cases hf
    rfl

theorem map_exact_eq_error {o : Except Failure Value} {f : Failure}
    (h : o.map Value.exact = .error f) : o = .error f := by
  cases o with
  | ok v => cases h
  | error f' =>
    cases h
    rfl

theorem evaluateItem_fails {f : Failure} (h : evaluateItem item s = (.error (.failure f), t)) :
    (s.parse item = .error (.failure f) ∧ t = s) ∨
      ∃ e, s.parse item = .ok e ∧ SameScope s t ∧ Fails item e s t := by
  rw [evaluateItem, get_bind] at h
  rcases bind_eq_error_iff.mp h with h | ⟨e, u, hp, h⟩
  · obtain ⟨hp, rfl⟩ := Prod.mk.inj h
    exact .inl ⟨hp, rfl⟩
  · obtain ⟨hparse, rfl⟩ := Prod.mk.inj hp
    have hscope := evaluateParsed_sameScope item e s
    rw [h] at hscope
    exact .inr ⟨e, hparse, hscope, evaluateParsed_fails h⟩

/-- An item that fails leaves the constants and the limits alone, and all variables if its text was
not parsed; otherwise it changes the names of assignments that were carried out before the failure,
and no others. In a batch the same is true of each slot that ends in an error, on its own turn. -/
theorem failure_changes (s : Sheet) :
    (∀ item f t, evaluateItem item s = (.error (.failure f), t) →
      (s.parse item = .error (.failure f) ∧ t = s) ∨
        ∃ e, s.parse item = .ok e ∧ SameScope s t ∧ Fails item e s t) ∧
    ∀ items shown t, batch items s = (.ok shown, t) → ∃ slots s₁, Sheet.slots items s =
      (.ok slots, s₁) ∧
      ∀ i r f, shown[i]? = some r → r.failure? = some f → ∃ slot, slots[i]? = some slot ∧
        ((slot.parsed = .error f ∧ ∀ previous answer results u,
            settleNext slots previous answer results i u = (.ok results, u)) ∨
          ∃ e u w, Turn slots s₁ i slot e u ∧
            evaluateParsed slot.item e u = (.error (.failure f), w) ∧
            SameScope u w ∧ Fails slot.item e u w) := by
  constructor
  · intro item f t h
    exact evaluateItem_fails h
  · intro items shown t h
    obtain ⟨slots, s₁, hisolated⟩ := batch_isolated h
    refine ⟨slots, s₁, hisolated.slots_eq, fun i r f hr hf => ?_⟩
    have hi : i < slots.length := by
      obtain ⟨hlt, -⟩ := List.getElem?_eq_some_iff.mp hr
      rwa [← hisolated.parses.length_eq, ← hisolated.length_eq]
    have hs := List.getElem?_eq_getElem hi
    obtain ⟨r', o, hr', -, hcomes, ho⟩ := hisolated.recorded i _ hs
    rw [hr] at hr'
    cases hr'
    have herror : o = .error f := by
      have hshown := outcome_eq_error hf ho
      split at hshown
      · exact hshown
      · exact map_exact_eq_error hshown
    subst herror
    refine ⟨_, hs, ?_⟩
    rcases hcomes.error with hparsed | hturn
    · have hnone : slotAt? slots i = none := by
        rw [slotAt?, hs, Option.bind_some, Slot.expr?, hparsed]
        rfl
      exact .inl ⟨hparsed, fun _ _ _ _ => settleNext_none hnone⟩
    · exact .inr hturn

def unconverted : Item := { value := "x=5", conversion := "q" }

def unconvertedSheet : Sheet := { assigned := ({} : Bindings).insert "x" (.scalar { value := 5 }) }

theorem evaluateItem_unconverted :
    evaluateItem unconverted {} = (.error (.eval (.unknownName "q")), unconvertedSheet) := rfl

theorem batch_unconverted : ∃ r f t, batch [unconverted] {} = (.ok [r], t) ∧ r.failure? = some f ∧
    t.assigned.get? "x" ≠ none := by
  have hrun : ((batch [unconverted] {}).1.map fun shown => shown.map (·.failure?.isSome)).toOption =
      some [true] ∧ ((batch [unconverted] {}).2.assigned.get? "x").isSome = true := by
    decide +kernel
  rcases hbatch : batch [unconverted] {} with ⟨r, t⟩
  rw [hbatch] at hrun
  obtain ⟨hshown, hx⟩ := hrun
  cases r with
  | error f => cases hshown
  | ok shown =>
    obtain ⟨r, rfl, hfails⟩ := List.map_eq_singleton_iff.mp (Option.some.inj hshown)
    obtain ⟨f, hf⟩ := Option.isSome_iff_exists.mp hfails
    exact ⟨r, f, t, rfl, hf, Option.isSome_iff_ne_none.mp hx⟩

/-- What an item has assigned stays when the conversion of its value fails. -/
theorem unconverted_keeps_assignment :
    (∃ f t, evaluateItem unconverted {} = (.error (.failure f), t) ∧
      t.assigned.get? "x" ≠ ({} : Sheet).assigned.get? "x") ∧
    ∃ r f t, batch [unconverted] {} = (.ok [r], t) ∧ r.failure? = some f ∧
      t.assigned.get? "x" ≠ ({} : Sheet).assigned.get? "x" := by
  have hx : unconvertedSheet.assigned.get? "x" ≠ none := by
    intro h
    cases h
  exact ⟨⟨_, _, evaluateItem_unconverted, hx⟩, batch_unconverted⟩

theorem unconverted_changes :
    (evaluateItem unconverted {} = (.error (.eval (.unknownName "q")), unconvertedSheet) ∧
      ∃ e, ({} : Sheet).parse unconverted = .ok e ∧ Fails unconverted e {} unconvertedSheet) ∧
    ∃ r f t slots s₁ slot e u w, batch [unconverted] {} = (.ok [r], t) ∧ r.failure? = some f ∧
      Sheet.slots [unconverted] {} = (.ok slots, s₁) ∧ slots[0]? = some slot ∧
      Turn slots s₁ 0 slot e u ∧ Fails slot.item e u w := by
  obtain ⟨hitem, hbatch⟩ := failure_changes {}
  constructor
  · rcases hitem unconverted _ _ evaluateItem_unconverted with ⟨hp, -⟩ | ⟨e, hp, -, hfails⟩
    · cases hp
    · exact ⟨evaluateItem_unconverted, e, hp, hfails⟩
  · obtain ⟨r, f, t, hrun, hf, -⟩ := batch_unconverted
    obtain ⟨slots, s₁, hslots, hfailed⟩ := hbatch _ _ _ hrun
    obtain ⟨slot, hs, ⟨hp, -⟩ | ⟨e, u, w, ht, -, -, hfails⟩⟩ := hfailed 0 r f rfl hf
    · cases hslots
      cases hs
      cases hp
    · exact ⟨r, f, t, slots, s₁, slot, e, u, w, hrun, hf, hslots, hs, ht, hfails⟩

end Sheet

end UnitSheet
