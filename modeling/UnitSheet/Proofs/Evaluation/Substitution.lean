import UnitSheet.Proofs.Evaluation.Agreement
import UnitSheet.Proofs.Expr.Nodes

namespace UnitSheet

open UnitSheet.Expr UnitSheet.Computation Relation

def Quantity.literal (q : Quantity) : Literal := ⟨q.value, q.imaginary, q.dimension, q.figures, ""⟩

namespace Expr

mutual

/-- Quantities in the place of names. A name that is called with one argument is multiplied by
it. -/
def substitute (σ : String → Option Quantity) : Expr → Expr
  | literal l => literal l
  | name x =>
    match σ x with
    | some q => literal q.literal
    | none => name x
  | binary op left right => binary op (substitute σ left) (substitute σ right)
  | unary op operand => unary op (substitute σ operand)
  | builtin f args none => builtin f (substituteAll σ args) none
  | builtin f args (some special) => builtin f (substituteAll σ args) (some (substitute σ special))
  | call f args =>
    match σ f, substituteAll σ args with
    | some q, [arg] => mul (literal q.literal) arg
    | _, args => call f args
  | list items => list (substituteAll σ items)
  | assign x value => assign x (substitute σ value)
  | define f params body => define f params
    (substitute (fun x => if x ∈ params then none else σ x) body)

def substituteAll (σ : String → Option Quantity) : List Expr → List Expr
  | [] => []
  | e :: es => substitute σ e :: substituteAll σ es

end

/-- Substitution keeps the meaning of the expression: nothing in it assigns, and a name that has a
quantity is called with one argument only. -/
structure Substitutable (σ : String → Option Quantity) (e : Expr) : Prop where
  assignsNone : ∀ x, ¬ e.Assigns x
  calls : ∀ x args, (σ x).isSome → e.Contains (.call x args) → args.length = 1

end Expr

def Scope.outside (s : Scope) : Scope := { s with locals := {} }

/-- The quantities that the arguments of a call give to the parameters. -/
def argumentOf (params : List String) (qs : List Quantity) (x : String) :
    Option Quantity := (params.zip qs).lookup x

variable {σ : String → Option Quantity} {s : Scope} {b b' : Bindings} {n : Nat} {e c : Expr}
variable {es : List Expr}
variable {x : String} {q : Quantity} {params : List String} {qs : List Quantity} {body : Expr}

theorem argumentOf_eq_none (h : x ∉ params) : argumentOf params qs x = none := by
  apply List.lookup_eq_none_iff.mpr
  intro r hr
  have hne : x ≠ r.1 := fun hx => h (hx ▸ (List.of_mem_zip hr).1)
  exact bne_iff_ne.mpr hne

theorem Bindings.get?_insertAll_zip (h : params.Nodup) :
    (b.insertAll (params.zip (qs.map .scalar))).get? x =
    ((argumentOf params qs x).map Value.scalar).or (b.get? x) := by
  induction params generalizing qs b with
  | nil => rfl
  | cons p params ih =>
    cases qs with
    | nil => rfl
    | cons q qs =>
      obtain ⟨hp, hrest⟩ := List.nodup_cons.mp h
      have hstep : b.insertAll ((p :: params).zip ((q :: qs).map .scalar)) =
          (b.insert p (.scalar q)).insertAll (params.zip (qs.map .scalar)) := rfl
      rw [hstep, ih hrest, get?_insert]
      by_cases hx : x = p
      · subst hx
        rw [argumentOf_eq_none hp]
        simp [argumentOf]
      · have hne : (x == p) = false := beq_eq_false_iff_ne.mpr hx
        simp [argumentOf, List.lookup_cons, hne, hx]

theorem Scope.get?_enter (h : params.Nodup) : (s.enter params (qs.map .scalar)).get? b x =
    ((argumentOf params qs x).map Value.scalar).or (globals s.constants b x) := by
  rw [Scope.get?, globals]
  congr 1
  exact (Bindings.get?_insertAll_zip h).trans Option.or_none

namespace Expr

theorem Substitutable.child (h : e.Substitutable σ) (hc : c ∈ e.children) : c.Substitutable σ where
  assignsNone := by
    intro x ⟨d, hd, hx⟩
    exact h.assignsNone x ⟨d, .head hc hd, hx⟩
  calls x args hx hd := h.calls x args hx (.head hc hd)

theorem mapM_substituteAll {α : Type} {m m' : Expr → Evaluation α}
    (h : ∀ e ∈ es, m e = m' (e.substitute σ)) : es.mapM m = (substituteAll σ es).mapM m' := by
  induction es with
  | nil => rfl
  | cons e es ih =>
    have hrest := ih fun e he => h e (List.mem_cons_of_mem _ he)
    rw [substituteAll, List.mapM_cons, List.mapM_cons, h e List.mem_cons_self, hrest]

theorem lookup_outside (h : s.locals.get? x = none) :
    Evaluation.lookup s x = Evaluation.lookup s.outside x := by
  have hsame (b : Bindings) : s.get? b x = s.outside.get? b x := by
    rw [Scope.get?, h]
    rfl
  funext b
  cases hx : s.get? b x with
  | some v => rw [Evaluation.lookup_some hx, Evaluation.lookup_some ((hsame b).symm.trans hx)]
  | none => rw [Evaluation.lookup_none hx, Evaluation.lookup_none ((hsame b).symm.trans hx)]

theorem lookup_local {v : Value} (h : s.locals.get? x = some v) :
    Evaluation.lookup s x = pure v := by
  funext b
  apply Evaluation.lookup_some
  rw [Scope.get?, h]
  rfl

theorem evalWithin_call_factor {f : String} {arg arg' : Expr}
    (hf : s.locals.get? f = some (.scalar q))
    (harg : evalWithin n s arg = evalWithin n s.outside arg') :
    evalWithin (n + 1) s (.call f [arg]) = evalWithin (n + 1) s.outside
      (.mul (.literal q.literal) arg') := by
  rw [evalWithin, lookup_local hf, pure_bind, List.mapM_cons, List.mapM_nil, harg, bind_assoc]
  simp only [pure_bind]
  cases n with
  | zero => rfl
  | succ n => rfl

/-- A scope whose locals are quantities may lose them to the expression. -/
theorem evalWithin_substitute (hσ : ∀ x, s.locals.get? x = (σ x).map .scalar)
    (he : e.Substitutable σ) : evalWithin n s e = evalWithin n s.outside (e.substitute σ) := by
  induction n generalizing e with
  | zero => rfl
  | succ n ih =>
    have hchild (c : Expr) (hc : c ∈ e.children) :
        evalWithin n s c = evalWithin n s.outside (c.substitute σ) :=
      ih (he.child hc)
    cases e with
    | literal l => rfl
    | name x =>
      rw [substitute]
      cases hx : σ x with
      | some q => exact lookup_local (by rw [hσ, hx]; rfl)
      | none => exact lookup_outside (by rw [hσ, hx]; rfl)
    | binary op left right =>
      rw [substitute, evalWithin, hchild left (by simp [children]),
        hchild right (by simp [children])]
      rfl
    | unary op operand =>
      rw [substitute, evalWithin, hchild operand (by simp [children])]
      rfl
    | builtin f args special =>
      have hargs := mapM_substituteAll fun a ha => hchild a (List.mem_append_left _ ha)
      cases special with
      | none =>
        rw [substitute, evalWithin, hargs]
        rfl
      | some special =>
        have hspecial : (some special).mapM (evalWithin n s) =
            (some (special.substitute σ)).mapM (evalWithin n s.outside) := by
          rw [Option.mapM_some, Option.mapM_some, hchild special (by simp [children])]
        rw [substitute, evalWithin, hargs, hspecial]
        rfl
    | call f args =>
      have hargs : args.mapM (evalWithin n s) =
          (substituteAll σ args).mapM (evalWithin n s.outside) :=
        mapM_substituteAll hchild
      cases hf : σ f with
      | none =>
        have houtside : (Expr.call f args).substitute σ = .call f (substituteAll σ args) := by
          rw [substitute, hf]
        rw [houtside, evalWithin, lookup_outside (by rw [hσ, hf]; rfl), hargs]
        rfl
      | some q =>
        obtain ⟨arg, rfl⟩ := List.length_eq_one_iff.mp (he.calls f args (by rw [hf]; rfl) .refl)
        have hproduct : (Expr.call f [arg]).substitute σ =
            .mul (.literal q.literal) (arg.substitute σ) := by
          rw [substitute, hf]
          rfl
        rw [hproduct]
        exact evalWithin_call_factor (by rw [hσ, hf]; rfl) (hchild arg List.mem_cons_self)
    | list items =>
      have hitems : items.mapM (fun c => evalWithin n s c >>= Evaluation.element) =
          (substituteAll σ items).mapM (fun c => evalWithin n s.outside c >>= Evaluation.element) :=
        mapM_substituteAll fun c hc => by rw [hchild c hc]
      rw [substitute, evalWithin, hitems]
      rfl
    | assign x value => exact (he.assignsNone x ⟨_, .refl, rfl⟩).elim
    | define f params body => exact (he.assignsNone f ⟨_, .refl, rfl⟩).elim

theorem substitutable_argumentOf (hbody : ∀ x, ¬ body.Assigns x)
    (hcalls : ∀ p ∈ params, ∀ args, body.Contains (.call p args) → args.length = 1) :
    body.Substitutable (argumentOf params qs) where
  assignsNone := hbody
  calls x args hx hd := by
    obtain ⟨q, hq⟩ := Option.isSome_iff_exists.mp hx
    have hmem : x ∈ params := by
      by_contra hnot
      rw [argumentOf_eq_none hnot] at hq
      cases hq
    exact hcalls x hmem args hd

/-- The beta law: the body of a called function comes to what it comes to outside of function bodies
with its arguments in the place of its parameters, at the same level of nesting and from the same
variables. -/
theorem call_eq_substitution (s : Scope) (k : String) (params : List String) (body : Expr)
    (qs : List Quantity)
    (hparams : params.Nodup) (hcount : qs.length = params.length) (hbody : ∀ x, ¬ body.Assigns x)
    (hcalls : ∀ p ∈ params, ∀ args, body.Contains (.call p args) → args.length = 1) :
    (∀ n, evalWithin n (s.enter params (qs.map .scalar)) body =
      evalWithin n s.outside (body.substitute (argumentOf params qs))) ∧
    (∀ n f args b b', s.get? b f = some (.function k params body) →
      args.mapM (evalWithin n s) b = (.ok (qs.map .scalar), b') →
      evalWithin (n + 1) s (.call f args) b =
        evalWithin n s.outside (body.substitute (argumentOf params qs)) b') ∧
    ∀ b x, (s.enter params (qs.map .scalar)).get? b x =
      ((argumentOf params qs x).map Value.scalar).or (globals s.constants b x) := by
  have hbeta (n : Nat) : evalWithin n (s.enter params (qs.map .scalar)) body =
      evalWithin n s.outside (body.substitute (argumentOf params qs)) := by
    refine evalWithin_substitute (fun x => ?_) (substitutable_argumentOf hbody hcalls)
    exact (Bindings.get?_insertAll_zip hparams).trans Option.or_none
  refine ⟨hbeta, fun n f args b b' hf hargs => ?_, fun b x => Scope.get?_enter hparams⟩
  have hlength : (qs.map Value.scalar).length = params.length := by rw [List.length_map, hcount]
  rw [evalWithin, bind_ok (Evaluation.lookup_some hf), bind_ok hargs, ← hbeta n]
  dsimp only
  rw [if_pos hlength]

def productBody : Expr := .binary (.arithmetic .add)
  (.call "x" [.binary (.arithmetic .add) (.name "y") (.name "k")]) (.call "g" [.name "y"])

def callerScope : Scope where
  constants := .ofPairs [("x", .boolean true), ("k", .scalar ⟨2, 0, .none, 0⟩)]
  locals := .ofPairs [("k", .boolean false), ("a", .scalar ⟨3, 0, .none, 0⟩)]
  limit := 8

def calledVariables : Bindings :=
  .ofPairs [("f", .function "f" ["x", "y"] productBody),
    ("g", .function "g" ["y"] (.mul (.name "y") (.name "k")))]

theorem productBody_calls {f : String} {args : List Expr}
    (h : productBody.Contains (.call f args)) : args.length = 1 := by
  have hnodes : Expr.call f args ∈ productBody.nodes := mem_nodes.mpr h
  simp [productBody, nodes, nodesAll] at hnodes
  rcases hnodes with ⟨-, rfl⟩ | ⟨-, rfl⟩ <;> rfl

theorem callerScope_call :
    (["x", "y"].Nodup ∧ (∀ x, ¬ productBody.Assigns x) ∧
      ∀ p ∈ ["x", "y"], ∀ args, productBody.Contains (.call p args) → args.length = 1) ∧
    evalWithin 9 callerScope
      (.call "f" [.name "a", .literal ⟨5, 0, .none, 0, "5"⟩]) calledVariables =
      evalWithin 8 { callerScope with locals := {} }
        (.binary (.arithmetic .add)
          (.mul (.literal ⟨3, 0, .none, 0, ""⟩)
            (.binary (.arithmetic .add) (.literal ⟨5, 0, .none, 0, ""⟩) (.name "k")))
          (.call "g" [.literal ⟨5, 0, .none, 0, ""⟩])) calledVariables := by
  have hassigns : ∀ x, ¬ productBody.Assigns x := by decide
  have hcalls : ∀ p ∈ ["x", "y"], ∀ args, productBody.Contains (.call p args) → args.length = 1 :=
    fun _ _ _ => productBody_calls
  refine ⟨⟨by decide, hassigns, hcalls⟩, ?_⟩
  obtain ⟨-, hcall, -⟩ := call_eq_substitution callerScope "f" ["x", "y"] productBody
    [⟨3, 0, .none, 0⟩, ⟨5, 0, .none, 0⟩] (by decide) rfl hassigns hcalls
  exact hcall 8 "f" _ calledVariables calledVariables rfl rfl

end Expr

end UnitSheet
