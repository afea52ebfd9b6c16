import UnitSheet.Proofs.Evaluation.Breakdown
import UnitSheet.Proofs.Expr.Legibility
import UnitSheet.Proofs.Sheet.Conversion
import UnitSheet.Proofs.Sheet.Outcome

namespace UnitSheet.Sheet

open Update UnitSheet.Computation UnitSheet.Frame

variable {items : List Item} {item : Item} {slots : List Slot} {slot : Slot} {s t u : Sheet}
variable {e : Expr} {f : Fault} {v w : Value}

/-- The value cannot be cut into tokens, or the unit behind a value that is parsed. -/
def Illegible (s : Sheet) (item : Item) : Prop :=
  Token.Illegible item.value ∨
    (∃ e, Expr.parse item.value s.nesting = .ok e) ∧ isBlankText item.unit = false ∧
      Token.Illegible item.unit

theorem parse_fault_iff : (∃ f, s.parse item = .error (.fault f)) ↔ s.Illegible item := by
  rw [Illegible, ← Expr.parse_fault_iff s.nesting, ← Expr.parse_fault_iff s.nesting, parse]
  cases hvalue : Expr.parse item.value s.nesting with
  | error e =>
    simp only [reduceCtorEq, exists_false, false_and, or_false]
    exact Iff.rfl
  | ok e =>
    simp only [reduceCtorEq, exists_false, false_or, Except.ok.injEq, exists_eq', true_and]
    cases hblank : isBlankText item.unit with
    | true =>
      constructor
      · rintro ⟨f, hf⟩
        cases hf
      · rintro ⟨h, -⟩
        cases h
    | false =>
      rw [and_iff_right rfl]
      cases hunit : Expr.parse item.unit s.nesting with
      | error e' => exact Iff.rfl
      | ok unit =>
        constructor
        · rintro ⟨f, hf⟩
          cases hf
        · rintro ⟨f, hf⟩
          cases hf

/-- The evaluation of an expression and the conversion of its value comes to a power that breaks
down, or to a conversion that cannot be cut into tokens. -/
inductive BreaksDown (item : Item) (e : Expr) (s : Sheet) : Prop
  | power {f g : Frame} {v w : Value} (hf : Begins item e s f) (hg : Reaches f g)
    (hv : Raises g v w) (hb : v.PowerBreaks w)
  | conversion {v : Value} {t : Sheet} (hv : evaluate e s = (.ok v, t))
      (hb : isBlankText item.conversion = false) (hc : Token.Illegible item.conversion)

theorem express_not_fault {text : String} {v unit : Value} :
    express text v unit s ≠ (.error (.fault f), t) := by
  intro h
  cases unit with
  | scalar unit =>
    rw [express] at h
    split at h
    · cases h
    · obtain ⟨u, hv⟩ := rescaleValue_ok text unit v s
      rw [hv] at h
      cases h
  | _ => cases h

theorem evaluate_fault_iff : (∃ f t, evaluate e s = (.error (.fault f), t)) ↔
    ∃ g v w, Reaches (s.frame e) g ∧ Raises g v w ∧ v.PowerBreaks w := by
  rw [← run_fault_iff]
  constructor
  · intro ⟨f, t, h⟩
    exact ⟨f, (Prod.mk.inj h).1⟩
  · intro ⟨f, h⟩
    exact ⟨f, _, by rw [evaluate_eq, h]⟩

theorem evaluateParsed_fault_iff :
    (∃ f t, evaluateParsed item e s = (.error (.fault f), t)) ↔ BreaksDown item e s := by
  constructor
  · intro ⟨f, t, h⟩
    rcases bind_eq_error_iff.mp h with h | ⟨v, u, hv, h⟩
    · obtain ⟨g, v, w, hg, hraises, hbreaks⟩ := evaluate_fault_iff.mp ⟨f, t, h⟩
      exact .power .expression hg hraises hbreaks
    · cases hb : isBlankText item.conversion with
      | true =>
        rw [convert_of_blank hb] at h
        cases h
      | false =>
        cases hc : Expr.parse item.conversion u.nesting with
        | error stop =>
          rw [convert_of_not_parsed hb hc] at h
          cases h
          exact .conversion hv hb ((Expr.parse_fault_iff _).mp ⟨f, hc⟩)
        | ok c =>
          rw [convert_of_parsed hb hc] at h
          rcases bind_eq_error_iff.mp h with h | ⟨w, u', -, h⟩
          · obtain ⟨g, v, w, hg, hraises, hbreaks⟩ := evaluate_fault_iff.mp ⟨f, t, h⟩
            exact .power (.conversion (.intro hv hb hc)) hg hraises hbreaks
          · exact absurd h express_not_fault
  · intro h
    cases h with
    | power hf hg hraises hbreaks =>
      cases hf with
      | expression =>
        obtain ⟨f, t, h⟩ := evaluate_fault_iff.mpr ⟨_, _, _, hg, hraises, hbreaks⟩
        exact ⟨f, t, bind_error h⟩
      | conversion hc =>
        obtain ⟨hv, hb, hc⟩ := hc
        obtain ⟨f, t, h⟩ := evaluate_fault_iff.mpr ⟨_, _, _, hg, hraises, hbreaks⟩
        exact ⟨f, t, (bind_ok hv).trans ((convert_of_parsed hb hc).trans (bind_error h))⟩
    | @conversion v t hv hb hc =>
      obtain ⟨f, hf⟩ := (Expr.parse_fault_iff t.nesting).mpr hc
      exact ⟨f, t, (bind_ok hv).trans (convert_of_not_parsed hb hf)⟩

theorem settle_fault_iff {results : List Result} {i : Nat} :
    (∃ f t, settle slot e i results s = (.error f, t)) ↔ BreaksDown slot.item e s := by
  rw [← evaluateParsed_fault_iff]
  constructor
  · intro ⟨f, t, h⟩
    rcases hp : evaluateParsed slot.item e s with ⟨r, u⟩
    rcases r with (f' | f') | v
    · rw [settle_failure hp] at h
      cases h
    · exact ⟨f', u, rfl⟩
    · rw [settle_ok hp] at h
      cases h
  · intro ⟨f, t, h⟩
    exact ⟨f, t, settle_fault h⟩

theorem settleNext_fault_iff {previous : Option Value} {answer : Bool} {results : List Result}
    {i : Nat} : (∃ f t, settleNext slots previous answer results i s = (.error f, t)) ↔
      ∃ slot e, slots[i]? = some slot ∧ slot.expr? = some e ∧
        BreaksDown slot.item e (readyFor slot (results.take i) previous answer s) := by
  cases hat : slotAt? slots i with
  | none =>
    constructor
    · intro ⟨f, t, h⟩
      rw [settleNext_none hat] at h
      cases h
    · rintro ⟨slot, e, hs, he, -⟩
      rw [slotAt?_eq_some.mpr ⟨hs, he⟩] at hat
      cases hat
  | some p =>
    obtain ⟨slot, e⟩ := p
    obtain ⟨hs, he⟩ := slotAt?_eq_some.mp hat
    rw [settleNext_some hs he, settle_fault_iff]
    constructor
    · exact fun h => ⟨slot, e, hs, he, h⟩
    · intro ⟨slot', e', hs', he', h⟩
      rw [slotAt?_eq_some.mpr ⟨hs', he'⟩] at hat
      cases hat
      exact h

def BreaksOnTurn (slots : List Slot) (s : Sheet) : Prop :=
  ∃ i slot e t, Turn slots s i slot e t ∧ BreaksDown slot.item e t

theorem evaluateSlots_fault_iff :
    (∃ f t, evaluateSlots slots s = (.error f, t)) ↔ BreaksOnTurn slots s := by
  constructor
  · intro ⟨f, t, h⟩
    rcases hrun : progress slots s (s.plan slots).order with ⟨r, u⟩
    cases r with
    | ok results =>
      rw [evaluateSlots_ok hrun] at h
      cases h
    | error f' =>
      obtain ⟨before, i, results, t, hp, hr, hstep⟩ := foldlM_eq_error_iff.mp hrun
      obtain ⟨slot, e, hs, he, hbreaks⟩ := settleNext_fault_iff.mp ⟨f', u, hstep⟩
      exact ⟨i, slot, e, _, .intro hp hr hs he, hbreaks⟩
  · intro ⟨i, slot, e, t, hturn, hbreaks⟩
    obtain ⟨hp, hr, hs, he⟩ := hturn
    obtain ⟨f, u, hstep⟩ := settleNext_fault_iff.mpr ⟨slot, e, hs, he, hbreaks⟩
    exact ⟨f, u, evaluateSlots_error (foldlM_eq_error_iff.mpr ⟨_, i, _, _, hp, hr, hstep⟩)⟩

theorem slots_fault_iff :
    (∃ f t, Sheet.slots items s = (.error f, t)) ↔ ∃ item ∈ items, s.Illegible item := by
  simp only [← parse_fault_iff]
  rcases parse_all_or_fault s items with ⟨slots, hslots⟩ | ⟨before, slots, item, after, f, rfl,
    hbefore, hf⟩
  · obtain ⟨t, hrun, -⟩ := slots_ok hslots
    rw [hrun]
    constructor
    · intro ⟨f, u, h⟩
      cases h
    · intro ⟨item, hi, f, hf⟩
      obtain ⟨i, hlt, rfl⟩ := List.getElem_of_mem hi
      have hparses := hf.symm.trans (hslots.get hlt (hslots.length_eq ▸ hlt)).parse_eq
      generalize (slots.get _).parsed = parsed at hparses
      cases parsed with
      | ok e => cases hparses
      | error f' => cases hparses
  · obtain ⟨u, hrun⟩ := slotsFrom_fault (n := 0) after hbefore hf (.refl s)
    constructor
    · exact fun _ => ⟨item, by simp, f, hf⟩
    · exact fun _ => ⟨f, u, hrun⟩

/-- A text of a batch cannot be cut into tokens, or a slot breaks down on its turn. -/
inductive Breaks (items : List Item) (s : Sheet) : Prop
  | text {item : Item} (hi : item ∈ items) (h : s.Illegible item)
  | turn {slots : List Slot} {s₁ : Sheet} (hs : Sheet.slots items s = (.ok slots, s₁))
      (h : BreaksOnTurn slots s₁)

theorem batch_fault_iff : (∃ f t, batch items s = (.error f, t)) ↔ Breaks items s := by
  constructor
  · intro ⟨f, t, h⟩
    rcases bind_eq_error_iff.mp h with h | ⟨slots, s₁, hslots, h⟩
    · obtain ⟨item, hi, hillegible⟩ := slots_fault_iff.mp ⟨f, t, h⟩
      exact .text hi hillegible
    · exact .turn hslots (evaluateSlots_fault_iff.mp ⟨f, t, h⟩)
  · intro h
    cases h with
    | text hi h =>
      obtain ⟨f, t, h⟩ := slots_fault_iff.mpr ⟨_, hi, h⟩
      exact ⟨f, t, bind_error h⟩
    | turn hs h =>
      obtain ⟨f, t, h⟩ := evaluateSlots_fault_iff.mpr h
      exact ⟨f, t, (bind_ok hs).trans h⟩

/-- The batch returns, and each item has its result. -/
def Isolates (items : List Item) (s : Sheet) : Prop :=
  ∃ shown t slots s₁, batch items s = (.ok shown, t) ∧ Isolated items s slots s₁ shown

/-- A batch records every error for its own item, evaluates all the others and returns one result
for each item, unless a text cannot be cut into tokens or a slot comes to a power that breaks
down. -/
theorem batch_isolates_iff (items : List Item) (s : Sheet) :
    Isolates items s ↔ ¬ Breaks items s := by
  rw [← batch_fault_iff]
  constructor
  · rintro ⟨shown, t, slots, s₁, h, -⟩ ⟨f, u, hf⟩
    rw [h] at hf
    cases hf
  · intro h
    rcases hrun : batch items s with ⟨r, t⟩
    cases r with
    | ok shown =>
      obtain ⟨slots, s₁, hisolated⟩ := batch_isolated hrun
      exact ⟨shown, t, slots, s₁, hrun, hisolated⟩
    | error f => exact absurd ⟨f, t, hrun⟩ h

/-- A raised digit ends the batch, and the sum before it has no result. -/
theorem raisedDigit_not_isolates : ¬ Isolates [{ value := "1+1" }, { value := "²" }] {} := by
  rintro ⟨shown, t, slots, s₁, h, -⟩
  have hfault :
      (batch [{ value := "1+1" }, { value := "²" }] {}).1 = .error (.notDecimal "²") := rfl
  rw [h] at hfault
  cases hfault

end UnitSheet.Sheet
