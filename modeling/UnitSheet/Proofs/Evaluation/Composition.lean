import UnitSheet.Evaluation
import UnitSheet.Expr.Names
import UnitSheet.Proofs.Value.Shape

namespace UnitSheet

open UnitSheet.Expr

namespace Evaluation

/-- The property passes through sequences of work: the second part may rely on what holds of the
first result. -/
structure Composes (H : ∀ {α : Type}, (α → Prop) → Evaluation α → Prop) : Prop where
  lift {α : Type} {P : α → Prop} {r : Except Stop α} (h : ∀ v, r = .ok v → P v) : H P (lift r)
  bind {α β : Type} {P : α → Prop} {Q : β → Prop} {m : Evaluation α} {f : α → Evaluation β}
    (hm : H P m) (hf : ∀ v, P v → H Q (f v)) : H Q (m >>= f)

/-- The clauses that carry the property through the evaluation of allowed expressions, to values
with `V`. -/
structure Carries (H : ∀ {α : Type}, (α → Prop) → Evaluation α → Prop) (V : Value → Prop)
    (allowed : Scope → Expr → Prop) : Prop extends Composes H where
  data {v : Value} (hv : v.IsData) : V v
  lookup {s : Scope} {e : Expr} {x : String} (he : allowed s e) (hx : e.head? = some x) : H V
    (lookup s x)
  operand {s : Scope} {e c : Expr} (he : allowed s e) (hc : c ∈ e.children) (hb : e.binders = []) :
    allowed s c
  /-- The bodies of functions are allowed where they are called. -/
  body {s : Scope} {e body : Expr} {k : String} {params : List String} {vs : List Value}
    (he : allowed s e)
    (hk : V (.function k params body)) (hvs : ∀ v ∈ vs, V v) (hn : vs.length = params.length) :
    allowed (s.enter params vs) body
  store {s : Scope} {e : Expr} {x : String} {v : Value} (he : allowed s e) (hx : e.target? = some x)
    (hv : V v) : H (fun _ => True) (store x v)
  define {s : Scope} {k : String} {params : List String} {body : Expr}
    (he : allowed s (.define k params body)) : V (.function k params body)

variable {H : ∀ {α : Type}, (α → Prop) → Evaluation α → Prop} {V : Value → Prop}
variable {allowed : Scope → Expr → Prop} {α β : Type} {P : α → Prop} {s : Scope} {e : Expr}

namespace Composes

theorem pure (hH : Composes H) {v : α} (h : P v) : H P (Pure.pure v) := by
  apply hH.lift (r := .ok v)
  intro w hw
  cases hw
  exact h

theorem stop (hH : Composes H) (e : EvalError) :
    H P (stop e) := hH.lift (r := .error (.eval e)) nofun

theorem mapM (hH : Composes H) {f : β → Evaluation α} {bs : List β} (hf : ∀ c ∈ bs, H P (f c)) :
    H (fun vs => ∀ v ∈ vs, P v) (bs.mapM f) := by
  induction bs with
  | nil => exact hH.pure (by simp)
  | cons c bs ih =>
    rw [List.mapM_cons]
    apply hH.bind (hf c List.mem_cons_self)
    intro v hv
    apply hH.bind (ih fun c hc => hf c (List.mem_cons_of_mem _ hc))
    intro vs hvs
    exact hH.pure (List.forall_mem_cons.mpr ⟨hv, hvs⟩)

theorem assignable (hH : Composes H) (s : Scope) (x : String) :
    H (fun _ => True) (assignable s x) := by
  rw [Evaluation.assignable]
  split
  · exact hH.stop _
  · exact hH.pure trivial

theorem element (hH : Composes H) (v : Value) : H (fun _ => True) (element v) := by
  cases v with
  | scalar q => exact hH.pure trivial
  | _ => exact hH.stop _

end Composes

namespace Carries

theorem product (hH : Carries H V allowed) (factor : Value) (f : String) (vs : List Value) :
    H V (match vs with
      | [v] => Evaluation.lift (Value.arithmetic .mul factor v)
      | _ => Evaluation.stop (.notAFunction f)) := by
  split
  · exact hH.lift fun u hu => hH.data (Value.isData_of_broadcast hu)
  · exact hH.stop _

/-- The evaluation of an allowed expression has the property. -/
theorem evalWithin (hH : Carries H V allowed) (n : Nat) (he : allowed s e) :
    H V (evalWithin n s e) := by
  induction n generalizing s e with
  | zero => exact hH.stop _
  | succ n ih =>
    have hchild (c : Expr) (hc : c ∈ e.children) (hb : e.binders = []) :
        H V (Expr.evalWithin n s c) :=
      ih (hH.operand he hc hb)
    cases e with
    | literal l => exact hH.pure (hH.data (Value.scalar_isData _))
    | name x => exact hH.lookup he rfl
    | binary op left right =>
      apply hH.bind (hchild left (by simp [children]) rfl)
      intro v _
      apply hH.bind (hchild right (by simp [children]) rfl)
      intro w _
      exact hH.lift fun u hu => hH.data (Value.isData_of_binary hu)
    | unary op operand =>
      apply hH.bind (hchild operand (by simp [children]) rfl)
      intro v _
      exact hH.lift fun u hu => hH.data (Value.isData_of_unary hu)
    | builtin f args special =>
      apply hH.bind (hH.mapM fun c hc => hchild c (List.mem_append_left _ hc) rfl)
      intro vs _
      refine hH.bind (P := fun _ => True) ?_ fun w _ => hH.lift fun u hu => hH.data
        (Builtin.isData_of_apply hu)
      cases special with
      | none => exact hH.pure trivial
      | some c => exact hH.bind (hchild c (by simp [children]) rfl) fun w _ => hH.pure trivial
    | call f args =>
      apply hH.bind (hH.lookup he rfl)
      intro callee hcallee
      apply hH.bind (hH.mapM fun c hc => hchild c hc rfl)
      intro vs hvs
      cases callee with
      | function g params body =>
        dsimp only
        split
        · next hn => exact ih (hH.body he hcallee hvs hn)
        · exact hH.stop _
      | _ => exact hH.product _ f vs
    | list items =>
      refine hH.bind (hH.mapM (P := fun _ => True) fun c hc => ?_) fun qs _ => hH.pure
        (hH.data (Value.list_isData qs))
      exact hH.bind (hchild c hc rfl) fun v _ => hH.element v
    | assign x value =>
      apply hH.bind (hH.assignable s x)
      intro _ _
      apply hH.bind (hchild value (by simp [children]) rfl)
      intro v hv
      exact hH.bind (hH.store he rfl hv) fun _ _ => hH.pure hv
    | define f params body =>
      apply hH.bind (hH.assignable s f)
      intro _ _
      exact hH.bind (hH.store he rfl (hH.define he)) fun _ _ => hH.pure (hH.define he)

end Carries

end Evaluation

end UnitSheet
