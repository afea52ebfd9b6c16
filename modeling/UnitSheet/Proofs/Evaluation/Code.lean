import UnitSheet.Proofs.Evaluation.Agreement
import UnitSheet.Proofs.Evaluation.Frame

namespace UnitSheet

open UnitSheet.Expr UnitSheet.Computation Relation

/-- The parts of an expression, and those of the function bodies that are bound to the names read by
such parts. -/
inductive Expr.Accessible (constants assigned : Bindings) (e : Expr) : Expr → Prop
  | self : Accessible constants assigned e e
  | part {c d : Expr} (hc : Accessible constants assigned e c) (hd : d ∈ c.children) :
      Accessible constants assigned e d
  | body {c body : Expr} {x f : String} {params : List String}
      (hc : Accessible constants assigned e c)
      (hx : c.head? = some x) (hf : globals constants assigned x = some (.function f params body)) :
      Accessible constants assigned e body

def Parts (C : Expr → Prop) : Prop := ∀ c d, C c → d ∈ c.children → C d

/-- Calls of a function value run code. -/
def Value.Runs (C : Expr → Prop) : Value → Prop
  | .function _ _ body => C body
  | _ => True

/-- What code finds bound to the names that it reads runs code again. -/
def Binds (C : Expr → Prop) (constants b : Bindings) : Prop :=
  ∀ c x v, C c → c.head? = some x → globals constants b x = some v → v.Runs C

/-- The work runs code, if it finds code bound to the names that code reads, and it comes to no
other functions. -/
def Confined {α : Type} (C : Expr → Prop) (constants : Bindings) (P : α → Prop)
    (m : Evaluation α) : Prop :=
  ∀ b, Binds C constants b → Binds C constants (m b).2 ∧ ∀ v, (m b).1 = .ok v → P v

variable {C : Expr → Prop} {constants b b' : Bindings} {α β : Type} {s : Scope} {e : Expr}
variable {x : String} {v : Value} {n : Nat}

theorem Value.IsData.runs (h : v.IsData) : v.Runs C := by
  cases v with
  | function f params body => exact (h rfl).elim
  | _ => trivial

theorem Binds.insert (h : Binds C constants b) (hv : v.Runs C) (x : String) :
    Binds C constants (b.insert x v) := by
  intro c y w hc hy hw
  rcases Option.or_eq_some_iff.mp hw with hw | ⟨hnone, hw⟩
  · exact h c y w hc hy (Option.or_eq_some_iff.mpr (.inl hw))
  · rw [Bindings.get?_insert] at hw
    split at hw
    · cases hw
      exact hv
    · exact h c y w hc hy (Option.or_eq_some_iff.mpr (.inr ⟨hnone, hw⟩))

theorem Binds.get? (h : Binds C s.constants b) {c : Expr} (hc : C c) (hx : c.head? = some x)
    (hl : ∀ x v, s.locals.get? x = some v → v.Runs C) (hv : s.get? b x = some v) : v.Runs C := by
  rcases Option.or_eq_some_iff.mp hv with hv | ⟨-, hv⟩
  · exact hl x v hv
  · exact h c x v hc hx hv

namespace Confined

variable {P : α → Prop} {Q : β → Prop} {m : Evaluation α} {f : α → Evaluation β}

theorem lift {r : Except Stop α} (h : ∀ v, r = .ok v → P v) :
    Confined C constants P (Evaluation.lift r) :=
  fun _ hb => ⟨hb, h⟩

theorem run_ok {v : α} (hm : Confined C constants P m) (hb : Binds C constants b)
    (h : m b = (.ok v, b')) : Binds C constants b' ∧ P v := by
  obtain ⟨hend, hv⟩ := hm b hb
  rw [h] at hend hv
  exact ⟨hend, hv v rfl⟩

theorem bind (hm : Confined C constants P m) (hf : ∀ v, P v → Confined C constants Q (f v)) :
    Confined C constants Q (m >>= f) := by
  intro b hb
  rcases h : m b with ⟨r, b'⟩
  cases r with
  | error stop =>
    obtain ⟨hend, -⟩ := hm b hb
    rw [h] at hend
    rw [bind_error h]
    exact ⟨hend, nofun⟩
  | ok v =>
    obtain ⟨hend, hv⟩ := hm.run_ok hb h
    rw [bind_ok h]
    exact hf v hv b' hend

theorem composes : Evaluation.Composes (Confined C constants) := ⟨lift, bind⟩

theorem store (hv : v.Runs C) (x : String) :
    Confined C constants (fun _ => True) (Evaluation.store x v) :=
  fun _ hb => ⟨hb.insert hv x, fun _ _ => trivial⟩

theorem lookup {c : Expr} (hc : C c) (hx : c.head? = some x)
    (hl : ∀ x v, s.locals.get? x = some v → v.Runs C) :
    Confined C s.constants (Value.Runs C) (Evaluation.lookup s x) := by
  intro b hb
  cases hv : s.get? b x with
  | some v =>
    rw [Evaluation.lookup_some hv]
    refine ⟨hb, fun w hw => ?_⟩
    cases hw
    exact hb.get? hc hx hl hv
  | none =>
    rw [Evaluation.lookup_none hv]
    exact ⟨hb, nofun⟩

end Confined

structure Scope.Running (C : Expr → Prop) (constants : Bindings) (s : Scope) (e : Expr) : Prop where
  constants_eq : s.constants = constants
  expr : C e
  locals : ∀ x v, s.locals.get? x = some v → v.Runs C

theorem confined_carries (hC : Parts C) :
    Evaluation.Carries (Confined C constants) (Value.Runs C) (Scope.Running C constants) where
  toComposes := Confined.composes
  data := Value.IsData.runs
  lookup := by
    rintro s e x ⟨rfl, he, hl⟩ hx
    exact Confined.lookup he hx hl
  operand he hc _ := ⟨he.constants_eq, hC _ _ he.expr hc, he.locals⟩
  body he hk hvs _ := ⟨he.constants_eq, hk, fun _ v hv => hvs v (Scope.enter_locals_get? hv)⟩
  store _ _ hv := Confined.store hv _
  define he := hC _ _ he.expr (by simp [children])

/-- The evaluation of code runs code. -/
theorem confined_evalWithin (n : Nat) (hC : Parts C) (he : C e)
    (hl : ∀ x v, s.locals.get? x = some v → v.Runs C) :
    Confined C s.constants (Value.Runs C) (evalWithin n s e) :=
  (confined_carries hC).evalWithin n ⟨rfl, he, hl⟩

namespace Frame

variable {f g : Frame}

/-- An evaluation that begins with code, and finds code bound to the names that code reads. -/
structure Runs (C : Expr → Prop) (f : Frame) : Prop where
  expr : C f.expr
  locals : ∀ x v, f.scope.locals.get? x = some v → v.Runs C
  binds : Binds C f.scope.constants f.assigned

theorem Runs.operand {c : Expr} (h : Runs C ⟨n + 1, s, e, b⟩) (hC : Parts C) (hc : c ∈ e.children)
    (hb : Binds C s.constants b') : Runs C ⟨n, s, c, b'⟩ :=
  ⟨hC e c h.expr hc, h.locals, hb⟩

theorem Descends.runs (hC : Parts C) (hd : Descends f g) (h : f.Runs C) : g.Runs C := by
  have hchild {n s e b c} (h : Runs C ⟨n + 1, s, e, b⟩) (hc : c ∈ e.children) :
      Confined C s.constants (Value.Runs C) (evalWithin n s c) :=
    confined_evalWithin n hC (hC e c h.expr hc) h.locals
  have hmem := hd.mem_children
  cases hd with
  | left | operand | value => exact h.operand hC hmem h.binds
  | right hl => exact h.operand hC hmem ((hchild h List.mem_cons_self).run_ok h.binds hl).1
  | argument hp hb =>
    have hargs := Confined.composes.mapM fun c hc => hchild h
      (List.mem_append_left _ (hp.subset (List.mem_append_left _ hc)))
    exact h.operand hC hmem (hargs.run_ok h.binds hb).1
  | special ha =>
    have hargs := Confined.composes.mapM fun c hc => hchild h (List.mem_append_left _ hc)
    exact h.operand hC hmem (hargs.run_ok h.binds ha).1
  | callArgument _ hp hb =>
    have hargs := Confined.composes.mapM fun c hc => hchild h
      (hp.subset (List.mem_append_left _ hc))
    exact h.operand hC hmem (hargs.run_ok h.binds hb).1
  | item hp hb =>
    have hitems := Confined.composes.mapM fun c hc =>
      (hchild h (hp.subset (List.mem_append_left _ hc))).bind fun v _ => Confined.composes.element v
    exact h.operand hC hmem (hitems.run_ok h.binds hb).1

theorem Calls.runs (hC : Parts C) (hc : Calls f g) (h : f.Runs C) : g.Runs C := by
  cases hc with
  | @body n s x args b k params body vs b' hx ha hn =>
    have hbody : C body := h.binds.get? h.expr rfl h.locals hx
    have hargs : Confined C s.constants (fun vs => ∀ v ∈ vs, v.Runs C)
        (args.mapM (evalWithin n s)) :=
      Confined.composes.mapM fun c hc => confined_evalWithin n hC (hC _ c h.expr hc) h.locals
    obtain ⟨hend, hvs⟩ := hargs.run_ok h.binds ha
    exact ⟨hbody, fun x v hv => hvs v (Scope.enter_locals_get? hv), hend⟩

theorem Reaches.runs (hC : Parts C) (hr : Reaches f g) (h : f.Runs C) : g.Runs C := by
  induction hr with
  | refl => exact h
  | tail _ he ih =>
    cases he with
    | inl hd => exact hd.runs hC ih
    | inr hc => exact hc.runs hC ih

theorem runs_accessible (hl : ∀ x, f.scope.locals.get? x = none) :
    f.Runs (Accessible f.scope.constants f.assigned f.expr) where
  expr := .self
  locals x v hv := by
    rw [hl x] at hv
    cases hv
  binds c x v hc hx hv := by
    cases v with
    | function k params body => exact .body hc hx hv
    | _ => trivial

theorem Reaches.accessible (h : Reaches f g) (hl : ∀ x, f.scope.locals.get? x = none) :
    Accessible f.scope.constants f.assigned f.expr g.expr :=
  (h.runs (fun _ _ => .part) (runs_accessible hl)).expr

/-- A part of the body of a called function is evaluated, and the name is one of the parameters of
this function. -/
inductive UnderParameter (f : Frame) (x : String) (g : Frame) : Prop
  | intro {k l : Frame} {y h : String} {args : List Expr} {params : List String} (hk : Reaches f k)
      (hy : k.expr = .call y args)
      (hv : k.scope.get? k.assigned y = some (.function h params l.expr))
      (hc : Calls k l) (hd : ReflTransGen Descends l g) (hx : x ∈ params) : UnderParameter f x g

theorem Reaches.underParameter (h : Reaches f g) (hl : ∀ x, f.scope.locals.get? x = none)
    (hx : g.scope.locals.get? x ≠ none) : UnderParameter f x g := by
  induction h with
  | refl => exact (hx (hl x)).elim
  | @tail k g hr he ih =>
    cases he with
    | inl hd =>
      rw [hd.scope_eq] at hx
      obtain ⟨hk, hy, hv, hc, hdescends, hp⟩ := ih hx
      exact .intro hk hy hv hc (hdescends.tail hd) hp
    | inr hc =>
      have hcall := hc
      cases hc with
      | body hv ha hn =>
        obtain ⟨v, hv'⟩ := Option.ne_none_iff_exists'.mp hx
        rcases Bindings.mem_or_get?_of_get?_insertAll hv' with hmem | hempty
        · exact .intro hr rfl hv hcall .refl (List.of_mem_zip hmem).1
        · cases hempty

end Frame

end UnitSheet
