import UnitSheet.Proofs.Sheet.Batch

namespace UnitSheet.Sheet

open Update UnitSheet.Computation

variable {P Q : Event → Prop} {s t : Sheet} {slots : List Slot} {i : Nat} {results : List Result}

/-- What one sheet tells beyond another one are such events. -/
def TellsMore (P : Event → Prop) (s t : Sheet) :
    Prop := ∃ es, t.journal = s.journal ++ es ∧ ∀ e ∈ es, P e

/-- Work that tells of nothing but such events. -/
def Tells {ε α : Type} (P : Event → Prop) (m : Update ε α) : Prop := ∀ s, TellsMore P s (m s).2

inductive Mismatch : Event → Prop
  | intro (text : String) (found : Dimension) : Mismatch (.conversionMismatch text found)

inductive Unparsed : Event → Prop
  | intro (index : Nat) (f : Failure) : Unparsed (.notParsed index f)

namespace TellsMore

theorem refl (P : Event → Prop) (s : Sheet) :
    TellsMore P s s := ⟨[], (List.append_nil _).symm, by simp⟩

theorem trans {u : Sheet} (h : TellsMore P s t) (h' : TellsMore P t u) : TellsMore P s u := by
  obtain ⟨es, hes, he⟩ := h
  obtain ⟨es', hes', he'⟩ := h'
  refine ⟨es ++ es', by rw [hes', hes, List.append_assoc], fun e hmem => ?_⟩
  rcases List.mem_append.mp hmem with hmem | hmem
  · exact he e hmem
  · exact he' e hmem

theorem record {e : Event} (he : P e) (s : Sheet) :
    TellsMore P s { s with journal := s.journal ++ [e] } :=
  ⟨[e], rfl, by simpa using he⟩

theorem mono (h : TellsMore P s t) (hPQ : ∀ e, P e → Q e) : TellsMore Q s t := by
  obtain ⟨es, hes, he⟩ := h
  exact ⟨es, hes, fun e hmem => hPQ e (he e hmem)⟩

/-- Where the events that have been added do not count, those that count are the same. -/
theorem filterMap_eq {γ : Type} {p : Event → Option γ} (h : TellsMore P s t)
    (hp : ∀ e, P e → p e = none) : t.journal.filterMap p = s.journal.filterMap p := by
  obtain ⟨es, hes, he⟩ := h
  rw [hes, List.filterMap_append, List.filterMap_eq_nil_iff.mpr fun e hmem => hp e (he e hmem),
    List.append_nil]

end TellsMore

section
variable {ε α β : Type} {m : Update ε α} {f : α → Update ε β}

theorem Tells.bind (hm : Tells P m) (hf : ∀ a, Tells P (f a)) : Tells P (m >>= f) := fun s =>
  bind_invariant (I := TellsMore P s) (hm s) fun a t _ ht => ht.trans (hf a t)

theorem tells_pure (a : α) : Tells P (pure a : Update ε α) := TellsMore.refl P

theorem tells_throw (e : ε) : Tells P (throw e : Update ε α) := TellsMore.refl P

theorem tells_record {e : Event} (he : P e) :
    Tells P (record e : Update ε Unit) := TellsMore.record he

theorem tells_mapM {as : List α} (hf : ∀ a, Tells P (f a)) : Tells P (as.mapM f) := fun s =>
  mapM_invariant (I := TellsMore P s) (.refl P s) fun _ a _ t _ _ ht => ht.trans (hf a t)

end

theorem tells_evaluate (e : Expr) : Tells P (evaluate e) := TellsMore.refl P

theorem tells_rescale (text : String) (unit q : Quantity) :
    Tells Mismatch (rescale text unit q) := by
  rw [rescale]
  split
  · exact tells_pure _
  · exact (tells_record (.intro text q.dimension)).bind fun _ => tells_pure _

theorem tells_express (text : String) (v unit : Value) : Tells Mismatch (express text v unit) := by
  cases unit with
  | scalar unit =>
    rw [express]
    split
    · exact tells_throw _
    · cases v with
      | scalar q => exact (tells_rescale text unit q).bind fun _ => tells_pure _
      | list qs => exact (tells_mapM (tells_rescale text unit)).bind fun _ => tells_pure _
      | _ => exact tells_pure _
  | _ => exact tells_throw _

theorem tells_convert (item : Item) (v : Value) : Tells Mismatch (convert item v) := by
  intro s
  cases hb : isBlankText item.conversion with
  | true =>
    rw [convert_of_blank hb]
    exact tells_pure v s
  | false =>
    cases hp : Expr.parse item.conversion s.nesting with
    | error stop =>
      rw [convert_of_not_parsed hb hp]
      exact .refl _ s
    | ok c =>
      rw [convert_of_parsed hb hp]
      exact (tells_evaluate c).bind (tells_express item.conversion v) s

theorem tells_evaluateParsed (item : Item) (e : Expr) : Tells Mismatch (evaluateParsed item e) :=
  (tells_evaluate e).bind (tells_convert item)

theorem tells_attempt {α : Type} {m : Update Stop α} (hm : Tells P m) : Tells P (attempt m) := by
  intro s
  have hs := hm s
  rw [attempt]
  rcases h : m s with ⟨(f | f) | a, t⟩ <;> rw [h] at hs <;> exact hs

theorem tells_slotsFrom (n : Nat) (items : List Item) : Tells Unparsed (slotsFrom n items) := by
  induction items generalizing n with
  | nil => exact tells_pure []
  | cons item items ih =>
    intro s
    rcases parses_or_fault s item with ⟨slot, hp⟩ | ⟨f, hf⟩
    · have hnote : TellsMore Unparsed s (noteParsed n slot s) := by
        rw [noteParsed]
        split
        · exact .refl _ s
        · exact .record (.intro n _) s
      rw [slotsFrom_cons hp]
      exact hnote.trans (((ih (n + 1)).bind fun _ => tells_pure _) _)
    · rw [slotsFrom_cons_fault hf]
      exact .refl _ s

theorem readyFor_journal (slot : Slot) (earlier : List Result) (previous : Option Value)
    (answer : Bool) (s : Sheet) :
    (readyFor slot earlier previous answer s).journal = s.journal := by
  rw [readyFor]
  split <;> rfl

theorem tells_settleNext (hm : ∀ e, Mismatch e → P e) (hv : ∀ v, P (.evaluated i v))
    (hf : ∀ f, P (.failed i f))
    (slots : List Slot) (previous : Option Value) (answer : Bool) (results : List Result) :
    Tells P (settleNext slots previous answer results i) := by
  intro s
  cases h : slotAt? slots i with
  | none =>
    rw [settleNext_none h]
    exact .refl P s
  | some p =>
    obtain ⟨slot, e⟩ := p
    obtain ⟨hs, he⟩ := slotAt?_eq_some.mp h
    have hparsed : Tells P (attempt (evaluateParsed slot.item e)) := fun t =>
      (tells_attempt (tells_evaluateParsed slot.item e) t).mono hm
    have hsettle : Tells P (settle slot e i results) := by
      refine hparsed.bind fun o => ?_
      cases o with
      | ok v => exact (tells_record (hv v)).bind fun _ => tells_pure _
      | error f => exact (tells_record (hf f)).bind fun _ => tells_pure _
    have hturn := hsettle (readyFor slot (results.take i) previous answer s)
    rw [TellsMore, readyFor_journal] at hturn
    rw [settleNext_some hs he]
    exact hturn

end UnitSheet.Sheet
