import UnitSheet.Proofs.Evaluation.Frame
import UnitSheet.Sheet.Basic

namespace UnitSheet.Sheet

open Update UnitSheet.Computation UnitSheet.Frame

variable {s t u : Sheet} {item : Item} {e : Expr} {v : Value}

/-- Only the variables and the journal differ. -/
structure SameScope (s t : Sheet) : Prop where
  nesting : t.nesting = s.nesting
  depth : t.depth = s.depth
  constants : t.constants = s.constants

namespace SameScope

theorem refl (s : Sheet) : SameScope s s := ⟨rfl, rfl, rfl⟩

theorem trans (h : SameScope s t) (h' : SameScope t u) : SameScope s u :=
  ⟨h'.nesting.trans h.nesting, h'.depth.trans h.depth, h'.constants.trans h.constants⟩

theorem scope_eq (h : SameScope s t) : t.scope = s.scope := by
  rw [scope, scope, h.constants, h.depth]

end SameScope

/-- Only the journal differs. -/
structure Alike (s t : Sheet) : Prop extends SameScope s t where
  assigned : t.assigned = s.assigned

namespace Alike

theorem refl (s : Sheet) : Alike s s := ⟨.refl s, rfl⟩

theorem trans (h : Alike s t) (h' : Alike t u) : Alike s u :=
  ⟨h.toSameScope.trans h'.toSameScope, h'.assigned.trans h.assigned⟩

theorem symm (h : Alike s t) : Alike t s :=
  ⟨⟨h.nesting.symm, h.depth.symm, h.constants.symm⟩, h.assigned.symm⟩

theorem record (s : Sheet) (j : List Event) :
    Alike s { s with journal := j } := ⟨⟨rfl, rfl, rfl⟩, rfl⟩

end Alike

/-- Work that only writes the journal. -/
def Quiet {ε α : Type} (m : Update ε α) : Prop := ∀ s, Alike s (m s).2

/-- Work that does not depend on the journal. -/
def Blind {ε α : Type} (m : Update ε α) : Prop :=
  ∀ s t, Alike s t → (m t).1 = (m s).1 ∧ Alike (m s).2 (m t).2

section
variable {ε α β : Type} {m : Update ε α} {f : α → Update ε β}

theorem Quiet.bind (hm : Quiet m) (hf : ∀ a, Quiet (f a)) : Quiet (m >>= f) := fun s =>
  bind_invariant (I := Alike s) (hm s) fun a t _ ht => ht.trans (hf a t)

theorem quiet_pure (a : α) : Quiet (pure a : Update ε α) := Alike.refl

theorem quiet_throw (e : ε) : Quiet (throw e : Update ε α) := Alike.refl

theorem quiet_record (e : Event) : Quiet (record e : Update ε Unit) := fun s => Alike.record s _

theorem quiet_mapM {as : List α} (hf : ∀ a, Quiet (f a)) : Quiet (as.mapM f) := fun s =>
  mapM_invariant (I := Alike s) (.refl s) fun _ a _ t _ _ ht => ht.trans (hf a t)

theorem Blind.bind (hm : Blind m) (hf : ∀ a, Blind (f a)) : Blind (m >>= f) := by
  intro s t h
  obtain ⟨hr, ha⟩ := hm s t h
  rcases hs : m s with ⟨r, s'⟩
  rcases ht : m t with ⟨r', t'⟩
  rw [hs, ht] at hr ha
  obtain rfl : r' = r := hr
  cases r' with
  | ok a =>
    rw [bind_ok hs, bind_ok ht]
    exact hf a s' t' ha
  | error e =>
    rw [bind_error hs, bind_error ht]
    exact ⟨rfl, ha⟩

theorem blind_pure (a : α) : Blind (pure a : Update ε α) := fun _ _ h => ⟨rfl, h⟩

theorem blind_throw (e : ε) : Blind (throw e : Update ε α) := fun _ _ h => ⟨rfl, h⟩

theorem blind_lift (r : Except ε α) : Blind (lift r) := fun _ _ h => ⟨rfl, h⟩

theorem blind_record (e : Event) : Blind (record e : Update ε Unit) := fun _ _ h =>
  ⟨rfl, ⟨h.nesting, h.depth, h.constants⟩, h.assigned⟩

theorem blind_mapM {as : List α} (hf : ∀ a, Blind (f a)) : Blind (as.mapM f) := by
  induction as with
  | nil => exact blind_pure []
  | cons a as ih =>
    rw [List.mapM_cons]
    exact (hf a).bind fun b => ih.bind fun bs => blind_pure (b :: bs)

theorem blind_attempt {m : Update Stop α} (hm : Blind m) : Blind (attempt m) := by
  intro s t h
  obtain ⟨hr, ha⟩ := hm s t h
  rcases hs : m s with ⟨r, s'⟩
  rcases ht : m t with ⟨r', t'⟩
  rw [hs, ht] at hr ha
  obtain rfl : r' = r := hr
  rw [attempt, attempt, hs, ht]
  rcases r' with (f | f) | a <;> exact ⟨rfl, ha⟩

theorem blind_get {g : Sheet → Update ε β} (hg : ∀ s, Blind (g s))
    (he : ∀ s t, Alike s t → g t = g s) : Blind (get >>= g) := by
  intro s t h
  rw [get_bind, get_bind, he s t h]
  exact hg s s t h

end

def frame (s : Sheet) (e : Expr) : Frame := ⟨(s.depth + 1).toNat, s.scope, e, s.assigned⟩

theorem evaluate_eq (e : Expr) (s : Sheet) :
    evaluate e s = ((s.frame e).run.1, { s with assigned := (s.frame e).run.2 }) := rfl

theorem evaluate_sameScope (e : Expr) (s : Sheet) : SameScope s (evaluate e s).2 := ⟨rfl, rfl, rfl⟩

theorem evaluate_target {x : String} (h : evaluate e s = (.ok v, t)) (hx : e.target? = some x) :
    t.assigned.get? x = some v := by
  obtain ⟨hv, rfl⟩ := Prod.mk.inj h
  exact run_target (f := s.frame e) (Prod.ext hv rfl) hx

theorem Alike.frame_eq (h : Alike s t) (e : Expr) : t.frame e = s.frame e := by
  rw [frame, frame, h.toSameScope.scope_eq, h.depth, h.assigned]

theorem blind_evaluate (e : Expr) : Blind (evaluate e) := by
  intro s t h
  rw [evaluate_eq, evaluate_eq, h.frame_eq]
  exact ⟨rfl, ⟨h.nesting, h.depth, h.constants⟩, rfl⟩

theorem quiet_rescale (text : String) (unit q : Quantity) : Quiet (rescale text unit q) := by
  rw [rescale]
  split
  · exact quiet_pure _
  · exact (quiet_record _).bind fun _ => quiet_pure _

theorem blind_rescale (text : String) (unit q : Quantity) : Blind (rescale text unit q) := by
  rw [rescale]
  split
  · exact blind_pure _
  · exact (blind_record _).bind fun _ => blind_pure _

theorem quiet_rescaleValue (text : String) (unit : Quantity) (v : Value) :
    Quiet (rescaleValue text unit v) := by
  cases v with
  | scalar q => exact (quiet_rescale text unit q).bind fun _ => quiet_pure _
  | list qs => exact (quiet_mapM (quiet_rescale text unit)).bind fun _ => quiet_pure _
  | _ => exact quiet_pure _

theorem blind_rescaleValue (text : String) (unit : Quantity) (v : Value) :
    Blind (rescaleValue text unit v) := by
  cases v with
  | scalar q => exact (blind_rescale text unit q).bind fun _ => blind_pure _
  | list qs => exact (blind_mapM (blind_rescale text unit)).bind fun _ => blind_pure _
  | _ => exact blind_pure _

theorem quiet_express (text : String) (v unit : Value) : Quiet (express text v unit) := by
  cases unit with
  | scalar unit =>
    rw [express]
    split
    · exact quiet_throw _
    · exact quiet_rescaleValue text unit v
  | _ => exact quiet_throw _

theorem blind_express (text : String) (v unit : Value) : Blind (express text v unit) := by
  cases unit with
  | scalar unit =>
    rw [express]
    split
    · exact blind_throw _
    · exact blind_rescaleValue text unit v
  | _ => exact blind_throw _

theorem blind_convert (item : Item) (v : Value) : Blind (convert item v) := by
  rw [convert]
  split
  · exact blind_pure v
  · refine blind_get (fun s => ?_) fun s t h => by rw [h.nesting]
    exact (blind_lift _).bind fun c => (blind_evaluate c).bind (blind_express item.conversion v)

theorem blind_evaluateParsed (item : Item) (e : Expr) : Blind (evaluateParsed item e) :=
  (blind_evaluate e).bind (blind_convert item)

/-- After the expression of an item has been evaluated, the unit to convert to is evaluated. -/
inductive Converts (item : Item) (e : Expr) (s : Sheet) : Sheet → Expr → Prop
  | intro {v t c} (hv : evaluate e s = (.ok v, t)) (hb : isBlankText item.conversion = false)
      (hp : Expr.parse item.conversion t.nesting = .ok c) : Converts item e s t c

/-- The evaluations that begin when the expression of an item is evaluated and its value
converted. -/
inductive Begins (item : Item) (e : Expr) (s : Sheet) : Frame → Prop
  | expression : Begins item e s (s.frame e)
  | conversion {t c} (h : Converts item e s t c) : Begins item e s (t.frame c)

theorem convert_of_blank (hb : isBlankText item.conversion = true) : convert item v = pure v := by
  rw [convert, if_pos hb]

theorem convert_of_parsed (hb : isBlankText item.conversion = false)
    {c : Expr} (hc : Expr.parse item.conversion s.nesting = .ok c) :
    convert item v s = (evaluate c >>= express item.conversion v) s := by
  rw [convert, hb]
  change (get >>= fun s => _ : Update Stop Value) s = _
  rw [get_bind, hc]
  rfl

theorem convert_of_not_parsed (hb : isBlankText item.conversion = false) {stop : Stop}
    (hc : Expr.parse item.conversion s.nesting = .error stop) :
    convert item v s = (.error stop, s) := by
  rw [convert, hb]
  change (get >>= fun s => _ : Update Stop Value) s = _
  rw [get_bind, hc]
  rfl

theorem evaluateParsed_of_blank (h : isBlankText item.conversion = true) (e : Expr) :
    evaluateParsed item e s = evaluate e s := by
  have hconvert : convert item = pure := funext fun _ => convert_of_blank h
  rw [evaluateParsed, hconvert, bind_pure]

/-- A property of the sheet that is true where evaluations begin and end, and that does not depend
on the journal, holds after evaluation and conversion. -/
theorem evaluateParsed_invariant {J : Sheet → Prop} (hJ : ∀ t u, Alike t u → J t → J u)
    (hs : J (evaluate e s).2)
    (hc : ∀ t c, Converts item e s t c → J t → J (evaluate c t).2) :
    J (evaluateParsed item e s).2 := by
  apply bind_invariant hs
  intro v t hv ht
  cases hb : isBlankText item.conversion with
  | true =>
    rw [convert_of_blank hb]
    exact ht
  | false =>
    cases hp : Expr.parse item.conversion t.nesting with
    | error stop =>
      rw [convert_of_not_parsed hb hp]
      exact ht
    | ok c =>
      rw [convert_of_parsed hb hp]
      apply bind_invariant (hc t c (.intro hv hb hp) ht)
      intro w u _ hu
      exact hJ _ _ (quiet_express _ v w u) hu

theorem evaluateParsed_sameScope (item : Item) (e : Expr) (s : Sheet) :
    SameScope s (evaluateParsed item e s).2 :=
  evaluateParsed_invariant (J := SameScope s) (fun _ _ h ht => ht.trans h.toSameScope)
    (evaluate_sameScope e s) fun t c _ ht => ht.trans (evaluate_sameScope c t)

theorem evaluateParsed_assigned {I : Bindings → Prop} (hI : I s.assigned)
    (hw : ∀ f, Begins item e s f → ∀ g, Reaches f g → g.Keeps I) :
    I (evaluateParsed item e s).2.assigned :=
  evaluateParsed_invariant (J := fun t => I t.assigned) (fun _ _ h ht => h.assigned ▸ ht)
    (run_invariant hI (hw _ .expression)) fun _ _ hc ht => run_invariant ht (hw _ (.conversion hc))

end UnitSheet.Sheet
