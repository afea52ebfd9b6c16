import UnitSheet.Proofs.Evaluation.Composition
import UnitSheet.Proofs.Evaluation.Operations
import UnitSheet.Proofs.Expr.Names

namespace UnitSheet

open UnitSheet.Expr UnitSheet.Computation Relation

/-- The names that evaluations may read and the names that they may assign to. -/
structure Access where
  reads : String → Prop
  writes : String → Prop

def Expr.DefinesNone (e : Expr) : Prop := ∀ f params body, ¬ e.Contains (.define f params body)

/-- A function body that keeps to an access, apart from its parameters. -/
structure Expr.KeepsTo (a : Access) (params : List String) (body : Expr) : Prop where
  reads : ∀ x, Free x body → x ∉ params → a.reads x
  writes : ∀ x, body.Assigns x → a.writes x
  definesNone : body.DefinesNone

/-- Calls of a function value keep to an access. -/
def Value.KeepsTo (a : Access) : Value → Prop
  | .function _ params body => body.KeepsTo a params
  | _ => True

/-- The evaluation of an expression in a scope keeps to an access: parameters hide names, and
functions are defined outside of function bodies. -/
structure Scope.Admits (s : Scope) (a : Access) (e : Expr) : Prop where
  reads : ∀ x, Free x e → s.locals.get? x = none → a.reads x
  writes : ∀ x, e.Assigns x → a.writes x
  define : ∀ f params body, e.Contains (.define f params body) →
    body.DefinesNone ∧ ∀ x, s.locals.get? x = none

def globals (constants assigned : Bindings) (x : String) : Option Value :=
  (constants.get? x).or (assigned.get? x)

/-- The names to read have the same values, and these keep to the access. -/
structure Agree (a : Access) (constants b b' : Bindings) : Prop where
  same : ∀ x, a.reads x → globals constants b x = globals constants b' x
  keeps : ∀ x v, a.reads x → globals constants b x = some v → v.KeepsTo a

/-- Where the names to read agree, the work gives the same result and makes the same assignments. -/
def Uniform {α : Type} (a : Access) (constants : Bindings) (P : α → Prop)
    (m : Evaluation α) : Prop :=
  ∀ b b', Agree a constants b b' → ∃ r ws, m b = (r, b.insertAll ws) ∧ m b' = (r, b'.insertAll ws) ∧
    (∀ w ∈ ws, a.writes w.1 ∧ w.2.KeepsTo a) ∧ ∀ v, r = .ok v → P v

variable {a : Access} {constants b b' : Bindings} {α β : Type} {s : Scope} {e : Expr} {x : String}
variable {v : Value}

theorem Value.IsData.keepsTo (h : v.IsData) : v.KeepsTo a := by
  cases v with
  | function f params body => exact (h rfl).elim
  | _ => trivial

theorem Value.KeepsTo.mono {a' : Access} (h : v.KeepsTo a) (hr : ∀ x, a.reads x → a'.reads x)
    (hw : ∀ x, a.writes x → a'.writes x) : v.KeepsTo a' := by
  cases v with
  | function f params body =>
    exact ⟨fun x hx hp => hr x (h.reads x hx hp), fun x hx => hw x (h.writes x hx), h.definesNone⟩
  | _ => trivial

theorem Agree.insertAll (h : Agree a constants b b') {ws : List (String × Value)}
    (hws : ∀ w ∈ ws, w.2.KeepsTo a) : Agree a constants (b.insertAll ws) (b'.insertAll ws) := by
  constructor
  · intro x hx
    have hsame := h.same x hx
    rw [globals, globals] at *
    cases hc : constants.get? x with
    | some v => rfl
    | none =>
      rw [hc] at hsame
      exact Bindings.get?_insertAll_congr hsame ws
  · intro x v hx hv
    rw [globals] at hv
    cases hc : constants.get? x with
    | some w =>
      rw [hc] at hv
      exact h.keeps x v hx (by rw [globals, hc]; exact hv)
    | none =>
      rw [hc] at hv
      rcases Bindings.mem_or_get?_of_get?_insertAll hv with hmem | hget
      · exact hws _ hmem
      · exact h.keeps x v hx (by rw [globals, hc]; exact hget)

theorem Agree.scope_get? (h : Agree a s.constants b b') (hx : s.locals.get? x = none → a.reads x)
    (hlocals : ∀ v, s.locals.get? x = some v → v.KeepsTo a) :
    s.get? b x = s.get? b' x ∧ ∀ v, s.get? b x = some v → v.KeepsTo a := by
  rw [Scope.get?, Scope.get?]
  cases hl : s.locals.get? x with
  | some v =>
    refine ⟨rfl, fun w hw => ?_⟩
    cases hw
    exact hlocals v hl
  | none => exact ⟨h.same x (hx hl), fun w => h.keeps x w (hx hl)⟩

namespace Uniform

variable {P : α → Prop} {Q : β → Prop}

theorem lift {r : Except Stop α} (h : ∀ v, r = .ok v → P v) :
    Uniform a constants P (Evaluation.lift r) := by
  intro b b' _
  exact ⟨r, [], rfl, rfl, by simp, h⟩

theorem bind {m : Evaluation α} {f : α → Evaluation β} (hm : Uniform a constants P m)
    (hf : ∀ v, P v → Uniform a constants Q (f v)) : Uniform a constants Q (m >>= f) := by
  intro b b' h
  obtain ⟨r, ws, hb, hb', hws, hr⟩ := hm b b' h
  cases r with
  | error e => exact ⟨.error e, ws, bind_error hb, bind_error hb', hws, nofun⟩
  | ok v =>
    obtain ⟨r', ws', hc, hc', hws', hr'⟩ :=
      hf v (hr v rfl) _ _ (h.insertAll fun w hw => (hws w hw).2)
    refine ⟨r', ws ++ ws', ?_, ?_, ?_, hr'⟩
    · rw [bind_ok hb, hc, Bindings.insertAll_append]
    · rw [bind_ok hb', hc', Bindings.insertAll_append]
    · intro w hw
      rcases List.mem_append.mp hw with hw | hw
      · exact hws w hw
      · exact hws' w hw

theorem composes : Evaluation.Composes (Uniform a constants) := ⟨lift, bind⟩

theorem store (hx : a.writes x) (hv : v.KeepsTo a) :
    Uniform a constants (fun _ => True) (Evaluation.store x v) := by
  intro b b' _
  exact ⟨.ok (), [(x, v)], rfl, rfl, by simpa using ⟨hx, hv⟩, fun _ _ => trivial⟩

theorem lookup (hx : s.locals.get? x = none → a.reads x)
    (hlocals : ∀ v, s.locals.get? x = some v → v.KeepsTo a) :
    Uniform a s.constants (Value.KeepsTo a) (Evaluation.lookup s x) := by
  intro b b' h
  obtain ⟨hsame, hkeeps⟩ := h.scope_get? hx hlocals
  cases hv : s.get? b x with
  | some v =>
    refine ⟨.ok v, [], Evaluation.lookup_some hv, Evaluation.lookup_some (hsame ▸ hv), by simp, ?_⟩
    intro w hw
    cases hw
    exact hkeeps v hv
  | none =>
    exact ⟨_, [], Evaluation.lookup_none hv, Evaluation.lookup_none (hsame ▸ hv), by simp, nofun⟩

end Uniform

theorem Scope.Admits.child {c : Expr} (h : s.Admits a e) (hc : c ∈ e.children)
    (hb : e.binders = []) : s.Admits a c where
  reads x hx := h.reads x (.child hc (by rw [hb]; exact List.not_mem_nil) hx)
  writes := by
    intro x ⟨d, hd, hx⟩
    exact h.writes x ⟨d, .head hc hd, hx⟩
  define f params body hd := h.define f params body (.head hc hd)

theorem Scope.enter_locals_get? {params : List String} {vs : List Value}
    (h : (s.enter params vs).locals.get? x = some v) : v ∈ vs := by
  rcases Bindings.mem_or_get?_of_get?_insertAll h with hmem | hempty
  · exact (List.of_mem_zip hmem).2
  · cases hempty

theorem Scope.enter_locals_eq_none {params : List String} {vs : List Value}
    (hn : vs.length = params.length) (h : (s.enter params vs).locals.get? x = none) :
    x ∉ params := by
  intro hx
  obtain ⟨i, hi, rfl⟩ := List.getElem_of_mem hx
  have hpair : (params[i], vs[i]) ∈ params.zip vs := by
    rw [← List.getElem_zip (h := by simpa [hn] using hi)]
    exact List.getElem_mem _
  exact (Bindings.get?_insertAll_eq_none_iff.mp h).2 _ hpair rfl

theorem Expr.KeepsTo.admits {params : List String} {body : Expr} {vs : List Value}
    (h : body.KeepsTo a params) (hn : vs.length = params.length) :
    (s.enter params vs).Admits a body where
  reads x hx hl := h.reads x hx (Scope.enter_locals_eq_none hn hl)
  writes := h.writes
  define f ps b hd := (h.definesNone f ps b hd).elim

structure Scope.Within (a : Access) (constants : Bindings) (s : Scope) (e : Expr) : Prop where
  constants_eq : s.constants = constants
  admits : s.Admits a e
  locals : ∀ x v, s.locals.get? x = some v → v.KeepsTo a

theorem Scope.Admits.define_keepsTo {f : String} {params : List String} {body : Expr}
    (h : s.Admits a (.define f params body)) : body.KeepsTo a params where
  reads x hx hp := by
    obtain ⟨-, hlocals⟩ := h.define f params body .refl
    exact h.reads x (.child (by simp [children]) hp hx) (hlocals x)
  writes := by
    rintro x ⟨d, hd, hx⟩
    exact h.writes x ⟨d, .head (by simp [children]) hd, hx⟩
  definesNone := (h.define f params body .refl).1

theorem uniform_carries :
    Evaluation.Carries (Uniform a constants) (Value.KeepsTo a) (Scope.Within a constants) where
  toComposes := Uniform.composes
  data := Value.IsData.keepsTo
  lookup := by
    rintro s e x ⟨rfl, hs, hl⟩ hx
    exact Uniform.lookup (hs.reads x (.head hx)) (hl x)
  operand he hc hb := ⟨he.constants_eq, he.admits.child hc hb, he.locals⟩
  body he hk hvs hn :=
    ⟨he.constants_eq, hk.admits hn, fun _ v hv => hvs v (Scope.enter_locals_get? hv)⟩
  store he hx hv := Uniform.store (he.admits.writes _ ⟨_, .refl, hx⟩) hv
  define he := he.admits.define_keepsTo

/-- Evaluation is uniform in what lies outside of its access. -/
theorem uniform_evalWithin (n : Nat) (hs : s.Admits a e)
    (hl : ∀ x v, s.locals.get? x = some v → v.KeepsTo a) :
    Uniform a s.constants (Value.KeepsTo a) (evalWithin n s e) :=
  uniform_carries.evalWithin n ⟨rfl, hs, hl⟩

end UnitSheet
