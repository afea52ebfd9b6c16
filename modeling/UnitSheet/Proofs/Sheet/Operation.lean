import UnitSheet.Proofs.Evaluation.Code
import UnitSheet.Proofs.Sheet.Batch

namespace UnitSheet.Sheet

open Update UnitSheet.Computation UnitSheet.Frame Relation

variable {s t u : Sheet} {slots : List Slot} {items : List Item} {item : Item} {e : Expr}
variable {f g : Frame} {x : String} {v : Value} {b b' : Bindings} {J : Sheet → Prop}

theorem quiet_slotsFrom (n : Nat) (items : List Item) : Quiet (slotsFrom n items) := by
  induction items generalizing n with
  | nil => exact quiet_pure _
  | cons item items ih =>
    intro s
    rcases parses_or_fault s item with ⟨slot, hp⟩ | ⟨f, hf⟩
    · rw [slotsFrom_cons hp]
      exact (noteParsed_alike n slot s).trans (((ih (n + 1)).bind fun _ => quiet_pure _) _)
    · rw [slotsFrom_cons_fault hf]
      exact .refl s

theorem evaluateSlots_invariant (hJ : ∀ t u, Alike t u → J t → J u) (hs : J s)
    (hanswer : definesAnswer slots = false → ∀ v t, J t → J (t.store answerName v))
    (hturn : ∀ i slot e t, Turn slots s i slot e t → J t → J (evaluateParsed slot.item e t).2) :
    J (evaluateSlots slots s).2 := by
  have hready (slot : Slot) (results : List Result) (previous : Option Value) (t : Sheet)
      (ht : J t) : J (readyFor slot results previous (definesAnswer slots) t) := by
    rw [readyFor]
    split
    · next h => exact hanswer (by simpa using h.2) _ t ht
    · exact ht
  have hall : J (progress slots s (s.plan slots).order).2 := by
    refine foldlM_invariant (hJ _ _ (noteCycle_alike _ s) hs) fun before i results t hp hr ht => ?_
    cases hat : slotAt? slots i with
    | none =>
      rw [settleNext_none hat]
      exact ht
    | some p =>
      obtain ⟨slot, e⟩ := p
      obtain ⟨hslot, he⟩ := slotAt?_eq_some.mp hat
      rw [settleNext_some hslot he]
      exact hJ _ _ (settle_alike ..)
        (hturn i slot e _ (.intro hp hr hslot he) (hready slot _ _ t ht))
  rw [evaluateSlots_eq]
  apply bind_invariant hall
  intro results t _ ht
  cases ha : definesAnswer slots with
  | true => exact ht
  | false => exact hanswer ha _ t ht

theorem batch_invariant (hJ : ∀ t u, Alike t u → J t → J u) (hs : J s)
    (hanswer : ∀ slots s₁, Sheet.slots items s = (.ok slots, s₁) → definesAnswer slots = false →
      ∀ v t, J t → J (t.store answerName v))
    (hturn : ∀ slots s₁ i slot e t, Sheet.slots items s = (.ok slots, s₁) →
    Turn slots s₁ i slot e t → J t → J (evaluateParsed slot.item e t).2) : J (batch items s).2 := by
  apply bind_invariant (hJ _ _ (quiet_slotsFrom 0 items s) hs)
  intro slots s₁ hslots hs₁
  exact evaluateSlots_invariant hJ hs₁ (hanswer slots s₁ hslots) fun i slot e t => hturn slots s₁ i
    slot e t hslots

theorem batch_sameScope (items : List Item) (s : Sheet) : SameScope s (batch items s).2 :=
  batch_invariant (fun _ _ h ht => ht.trans h.toSameScope) (.refl s)
    (fun _ _ _ _ _ _ ht => ht.trans ⟨rfl, rfl, rfl⟩)
    fun _ _ _ slot e t _ _ ht => ht.trans (evaluateParsed_sameScope slot.item e t)

theorem evaluateItem_of_parsed (hp : s.parse item = .ok e) :
    evaluateItem item s = evaluateParsed item e s := by
  rw [evaluateItem, get_bind, hp]
  rfl

theorem evaluateItem_of_not_parsed {stop : Stop} (hp : s.parse item = .error stop) :
    evaluateItem item s = (.error stop, s) := by
  rw [evaluateItem, get_bind, hp]
  rfl

def withConstant (name : String) (v : Value) (s : Sheet) : Sheet :=
  { s with constants := s.constants.insert name v, journal := s.journal ++ [.constant name v] }

theorem insertConstant_of_not_parsed {name value unit : String} {stop : Stop}
    (hp : s.parse { value, unit } = .error stop) :
    insertConstant name value unit s = (.error stop, s) := by
  rw [insertConstant, get_bind, hp]
  rfl

theorem insertConstant_error {name value unit : String} {stop : Stop}
    (hp : s.parse { value, unit } = .ok e)
    (h : evaluate e s = (.error stop, t)) :
    insertConstant name value unit s = (.error stop, t) := by
  rw [insertConstant, get_bind, hp]
  exact (bind_ok rfl).trans (bind_error h)

theorem insertConstant_ok {name value unit : String} (hp : s.parse { value, unit } = .ok e)
    (h : evaluate e s = (.ok v, t)) :
    insertConstant name value unit s = (.ok v.exact, withConstant name v.exact t) := by
  rw [insertConstant, get_bind, hp]
  exact (bind_ok rfl).trans (bind_ok h)

/-- What can be asked of a sheet. -/
inductive Operation
  | parse (item : Item)
  | evaluate (item : Item)
  | batch (items : List Item)
  | insertConstant (name value unit : String)
  | reset

namespace Operation

variable {op : Operation}

/-- The sheet that an operation leaves, also where it fails. -/
def run : Operation → Sheet → Sheet
  | .parse _, s => s
  | .evaluate item, s => (evaluateItem item s).2
  | .batch items, s => (Sheet.batch items s).2
  | .insertConstant name value unit, s => (Sheet.insertConstant name value unit s).2
  | .reset, s => s.reset

def inserted : Operation → Sheet → List (String × Value)
  | .insertConstant name value unit, s =>
    match (Sheet.insertConstant name value unit s).1 with
    | .ok v => [(name, v)]
    | .error _ => []
  | _, _ => []

/-- The evaluations that an operation begins. -/
inductive Begins : Operation → Sheet → Frame → Prop
  | item {item : Item} {s : Sheet} {e : Expr} {f : Frame} (hp : s.parse item = .ok e)
      (hf : Sheet.Begins item e s f) : Begins (.evaluate item) s f
  | slot {items : List Item} {s s₁ t : Sheet} {slots : List Slot} {i : Nat} {slot : Slot} {e : Expr}
      {f : Frame} (hs : Sheet.slots items s = (.ok slots, s₁)) (ht : Turn slots s₁ i slot e t)
      (hf : Sheet.Begins slot.item e t f) : Begins (.batch items) s f
  | constant {name value unit : String} {s : Sheet} {e : Expr}
      (hp : s.parse { value, unit } = .ok e) :
      Begins (.insertConstant name value unit) s (s.frame e)

/-- What an operation does to the variables, one write after another. -/
inductive Writes (op : Operation) (s : Sheet) : Bindings → Bindings → Prop
  | stored {f g : Frame} {x : String} {v : Value} {b : Bindings} (hf : op.Begins s f)
    (hg : Reaches f g) (hs : g.Stores x v) : Writes op s b (b.insert x v)
  /-- A batch binds the last answer, or unbinds it where there is none, if no slot defines it. -/
  | answer {items : List Item} {slots : List Slot} {s₁ : Sheet} {t : Sheet} (v : Option Value)
      (hop : op = .batch items) (hs : Sheet.slots items s = (.ok slots, s₁))
        (ha : definesAnswer slots = false) :
      Writes op s t.assigned (t.store answerName v).assigned
  | reset {b : Bindings} (hop : op = .reset) : Writes op s b {}

/-- The sheet after a run of operations. -/
def runAll (ops : List Operation) (s : Sheet) : Sheet := ops.foldl (fun s op => op.run s) s

def insertions : List Operation → Sheet → List (String × Value)
  | [], _ => []
  | op :: ops, s => op.inserted s ++ insertions ops (op.run s)

theorem Begins.scope_eq (h : op.Begins s f) : f.scope = s.scope := by
  have hbegins {item : Item} {e : Expr} {t : Sheet} {f : Frame} (hs : SameScope s t)
      (hf : Sheet.Begins item e t f) : f.scope = s.scope := by
    cases hf with
    | expression => exact hs.scope_eq
    | conversion hc =>
      cases hc with
      | @intro v u c hv hb hp =>
        have hu := evaluate_sameScope e t
        rw [hv] at hu
        exact (hs.trans hu).scope_eq
  cases h with
  | item _ hf => exact hbegins (.refl s) hf
  | slot hs ht hf => exact hbegins ((slots_eq_ok hs).1.toSameScope.trans ht.sameScope) hf
  | constant => rfl

theorem Begins.locals_get? (h : op.Begins s f) (x : String) : f.scope.locals.get? x = none := by
  rw [h.scope_eq]
  rfl

/-- The constants change by a successful insertion only, and only under its name. -/
theorem run_constants (op : Operation) (s : Sheet) :
    (op.run s).constants = s.constants.insertAll (op.inserted s) := by
  cases op with
  | parse | reset => rfl
  | batch items => exact (batch_sameScope items s).constants
  | evaluate item =>
    change (evaluateItem item s).2.constants = s.constants
    cases hp : s.parse item with
    | error stop => rw [evaluateItem_of_not_parsed hp]
    | ok e =>
      rw [evaluateItem_of_parsed hp]
      exact (evaluateParsed_sameScope item e s).constants
  | insertConstant name value unit =>
    rw [run, inserted]
    cases hp : s.parse { value, unit } with
    | error stop =>
      rw [insertConstant_of_not_parsed hp]
      rfl
    | ok e =>
      have hscope := (evaluate_sameScope e s).constants
      rcases he : Sheet.evaluate e s with ⟨r, t⟩
      rw [he] at hscope
      cases r with
      | error stop =>
        rw [insertConstant_error hp he]
        exact hscope
      | ok v =>
        rw [insertConstant_ok hp he]
        exact congrArg (·.insert name v.exact) hscope

theorem Begins.writes (hf : op.Begins s f) (h : ReflTransGen (op.Writes s) b f.assigned) :
    ReflTransGen (op.Writes s) b f.run.2 :=
  run_invariant_of_stores h fun _ _ _ _ hg hs hb => hb.tail (.stored hf hg hs)

theorem writes_evaluateParsed (hf : ∀ f, Sheet.Begins item e t f → op.Begins s f)
    (h : ReflTransGen (op.Writes s) b t.assigned) :
    ReflTransGen (op.Writes s) b (evaluateParsed item e t).2.assigned :=
  evaluateParsed_invariant (J := fun t => ReflTransGen (op.Writes s) b t.assigned)
    (fun _ _ ha ht => ha.assigned ▸ ht) ((hf _ .expression).writes h)
    fun _ _ hc ht => (hf _ (.conversion hc)).writes ht

/-- The variables change by what evaluations store, by the last answer of a batch, and where they
are forgotten. -/
theorem run_writes (op : Operation) (s : Sheet) :
    ReflTransGen (op.Writes s) s.assigned (op.run s).assigned := by
  cases op with
  | parse item => exact .refl
  | reset => exact .single (.reset rfl)
  | evaluate item =>
    rw [run]
    cases hp : s.parse item with
    | error stop =>
      rw [evaluateItem_of_not_parsed hp]
    | ok e =>
      rw [evaluateItem_of_parsed hp]
      exact writes_evaluateParsed (fun _ => .item hp) .refl
  | batch items =>
    refine batch_invariant
      (J := fun t => ReflTransGen (Writes (.batch items) s) s.assigned t.assigned)
      (fun _ _ ha ht => ha.assigned ▸ ht) .refl ?_ ?_
    · exact fun slots s₁ hs ha v t ht => ht.tail (.answer v rfl hs ha)
    · exact fun slots s₁ i slot e t hs hturn ht => writes_evaluateParsed (fun _ => .slot hs hturn)
        ht
  | insertConstant name value unit =>
    rw [run]
    cases hp : s.parse { value, unit } with
    | error stop => rw [insertConstant_of_not_parsed hp]
    | ok e =>
      have hbegins : Begins (.insertConstant name value unit) s (s.frame e) := .constant hp
      have hwrites := hbegins.writes (.refl (a := s.assigned))
      rcases he : Sheet.evaluate e s with ⟨r, t⟩
      obtain ⟨-, rfl⟩ := Prod.mk.inj he
      cases r with
      | error stop =>
        rw [insertConstant_error hp he]
        exact hwrites
      | ok v =>
        rw [insertConstant_ok hp he]
        exact hwrites

/-- What an evaluation stores is the target of an assignment in its code, and no constant. -/
theorem Begins.stores (hf : op.Begins s f) (hg : Reaches f g) (hs : g.Stores x v) :
    s.constants.get? x = none ∧ g.expr.target? = some x ∧
      f.expr.Accessible s.constants f.assigned g.expr := by
  have hscope := hf.scope_eq
  have haccessible := hg.accessible hf.locals_get?
  have hfree := hs.assignable
  rw [hg.constants_eq, hscope] at hfree
  rw [hscope] at haccessible
  exact ⟨Option.isNone_iff_eq_none.mp (Option.isSome_eq_false_iff.mp hfree), hs.target, haccessible⟩

theorem Begins.reads {c : Value} (hf : op.Begins s f) (hg : Reaches f g)
    (hc : s.constants.get? x = some c)
    (hx : ¬ UnderParameter f x g) (b : Bindings) : g.scope.get? b x = some c := by
  have hl : g.scope.locals.get? x = none := by
    by_contra hl
    exact hx (hg.underParameter hf.locals_get? hl)
  rw [Scope.get?, hl, hg.constants_eq, hf.scope_eq]
  exact Option.or_eq_some_iff.mpr (.inr ⟨rfl, Option.or_eq_some_iff.mpr (.inl hc)⟩)

/-- What an operation does to the names of a sheet, and what they mean to its evaluations. -/
structure Respects (op : Operation) (s : Sheet) : Prop where
  /-- A constant changes where it is inserted, and only by an insertion that succeeds. -/
  constants : (op.run s).constants = s.constants.insertAll (op.inserted s)
  writes : ReflTransGen (op.Writes s) s.assigned (op.run s).assigned
  /-- What is stored is no constant, and the target of an assignment in the expression that is
  evaluated or in the body of a function that can be reached from it. -/
  stores : ∀ f g x v, op.Begins s f → Reaches f g → g.Stores x v → s.constants.get? x = none ∧
    g.expr.target? = some x ∧ f.expr.Accessible s.constants f.assigned g.expr
  /-- A constant means what it is, whatever the variables are, unless a parameter hides it. -/
  reads : ∀ f g x c, op.Begins s f → Reaches f g → s.constants.get? x = some c →
    ¬ UnderParameter f x g → ∀ b, g.scope.get? b x = some c

theorem respects (op : Operation) (s : Sheet) : op.Respects s where
  constants := run_constants op s
  writes := run_writes op s
  stores _ _ _ _ hf hg hs := hf.stores hg hs
  reads _ _ _ _ hf hg hc hx := hf.reads hg hc hx

theorem runAll_constants (ops : List Operation) (s : Sheet) :
    (runAll ops s).constants = s.constants.insertAll (insertions ops s) := by
  induction ops generalizing s with
  | nil => rfl
  | cons op ops ih =>
    rw [insertions, Bindings.insertAll_append, ← run_constants]
    exact ih (op.run s)

/-- A run of operations changes constants by successful insertions only, and every operation in it,
where it comes, leaves the names of constants to these. -/
theorem runAll_respects (ops : List Operation) (s : Sheet) :
    (runAll ops s).constants = s.constants.insertAll (insertions ops s) ∧
      ∀ before op, before ++ [op] <+: ops → op.Respects (runAll before s) :=
  ⟨runAll_constants ops s, fun before op _ => respects op (runAll before s)⟩

def lateConstant : List Operation :=
  [.evaluate { value := "x=5" }, .insertConstant "x" "7" "", .evaluate { value := "x=6" }]

theorem lateConstant_respects : (insertions lateConstant {}).map Prod.fst = ["x"] ∧
    ((runAll lateConstant {}).assigned.get? "x").isSome = true ∧
    (runAll lateConstant {}).constants = ({} : Bindings).insertAll (insertions lateConstant {}) ∧
    ∀ before op, before ++ [op] <+: lateConstant → op.Respects (runAll before {}) := by
  have hrun : (insertions lateConstant {}).map Prod.fst = ["x"] ∧
      ((runAll lateConstant {}).assigned.get? "x").isSome = true := by decide +kernel
  exact ⟨hrun.1, hrun.2, runAll_respects lateConstant {}⟩

end Operation

end UnitSheet.Sheet
