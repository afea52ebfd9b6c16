import UnitSheet.Proofs.Evaluation.Log

namespace UnitSheet

open UnitSheet.Expr UnitSheet.Computation

variable {a : Access} {constants b b' : Bindings} {α : Type} {P : α → Prop}
variable {m : Expr → Evaluation α} {n : Nat} {s : Scope} {e : Expr} {es : List Expr}

/-- The values that the evaluation of an expression stores, in order. -/
def Expr.log (e : Expr) (s : Scope) (b : Bindings) :
    List (String × Value) := logWithin (s.limit + 1).toNat s e b

/-- The names that matter to an expression. -/
inductive Expr.Relevant (constants assigned : Bindings) (e : Expr) : String → Prop
  | read {x : String} (hx : x ∈ e.names) : Relevant constants assigned e x
  | called {x y f : String} {params : List String} {body : Expr}
      (hy : Relevant constants assigned e y)
      (hf : constants.get? y = some (.function f params body) ∨
        assigned.get? y = some (.function f params body))
      (hx : x ∈ (Expr.define f params body).names) : Relevant constants assigned e x

def Bindings.FlatFunctions (b : Bindings) : Prop :=
  ∀ x f params body, b.get? x = some (.function f params body) → body.DefinesNone

namespace Uniform

/-- Uniform work ends in the same way, and what may be read still agrees. -/
theorem ends {m : Evaluation α} (hm : Uniform a constants P m) (h : Agree a constants b b') :
    ∃ r c c', m b = (r, c) ∧ m b' = (r, c') ∧ Agree a constants c c' ∧ ∀ v, r = .ok v → P v := by
  obtain ⟨r, ws, hb, hb', hws, hr⟩ := hm b b' h
  exact ⟨r, _, _, hb, hb', h.insertAll fun w hw => (hws w hw).2, hr⟩

theorem logs_sequence (hm : ∀ e ∈ es, Uniform a s.constants P (m e))
    (hlog : ∀ e ∈ es, ∀ c c', Agree a s.constants c c' → logWithin n s e c = logWithin n s e c')
    (h : Agree a s.constants b b') :
    Frame.logs n (Frame.sequence n s m es b) = Frame.logs n (Frame.sequence n s m es b') := by
  induction es generalizing b b' with
  | nil => rfl
  | cons e es ih =>
    have hhead := hlog e List.mem_cons_self b b' h
    obtain ⟨r, c, c', hb, hb', hc, -⟩ := (hm e List.mem_cons_self).ends h
    rw [Frame.sequence, Frame.sequence]
    cases r with
    | error stop =>
      rw [started_error hb, started_error hb', List.map_singleton, List.map_singleton,
        Frame.logs_singleton, Frame.logs_singleton, hhead]
    | ok v =>
      have htail := ih (fun e he => hm e (List.mem_cons_of_mem _ he))
        (fun e he => hlog e (List.mem_cons_of_mem _ he)) hc
      rw [started_ok hb, started_ok hb', List.map_cons, List.map_cons, Frame.logs, Frame.logs,
        List.flatMap_cons, List.flatMap_cons]
      exact congrArg₂ _ hhead htail

end Uniform

/-- Evaluation stores the same values, in the same order, wherever the names agree that it may
read. -/
theorem logWithin_congr (hs : s.Admits a e) (hl : ∀ x v, s.locals.get? x = some v → v.KeepsTo a)
    (h : Agree a s.constants b b') : logWithin n s e b = logWithin n s e b' := by
  induction n generalizing s e b b' with
  | zero => rfl
  | succ n ih =>
    have hown : (evalWithin (n + 1) s e b).1 = (evalWithin (n + 1) s e b').1 := by
      obtain ⟨r, c, c', hb, hb', -⟩ := (uniform_evalWithin (n + 1) hs hl).ends h
      rw [hb, hb']
    have huniform (c : Expr) (hc : c ∈ e.children) (hbind : e.binders = []) :
        Uniform a s.constants (Value.KeepsTo a) (evalWithin n s c) :=
      uniform_evalWithin n (hs.child hc hbind) hl
    have hchild (c : Expr) (hc : c ∈ e.children) (hbind : e.binders = []) (b b' : Bindings)
        (h : Agree a s.constants b b') : logWithin n s c b = logWithin n s c b' :=
      ih (hs.child hc hbind) hl h
    have hchildren (hbind : e.binders = []) :
        Frame.logs n (Frame.sequence n s (evalWithin n s) e.children b) =
          Frame.logs n (Frame.sequence n s (evalWithin n s) e.children b') :=
      Uniform.logs_sequence (fun c hc => huniform c hc hbind) (fun c hc => hchild c hc hbind) h
    rw [logWithin, logWithin, hown]
    refine congrArg (· ++ _) ?_
    cases e with
    | literal | name | define => rfl
    | binary | unary | builtin => exact hchildren rfl
    | call x args =>
      obtain ⟨hsame, hkeeps⟩ := h.scope_get? (hs.reads x (.head rfl)) (hl x)
      rw [Frame.entered, Frame.entered, ← hsame]
      cases hx : s.get? b x with
      | none => rfl
      | some callee =>
        obtain ⟨r, c, c', hb, hb', hc, hvs⟩ :=
          (Uniform.composes.mapM fun c hc => huniform c hc rfl).ends h
        have hbody : Frame.logs n (Frame.body n s callee (r, c)) =
            Frame.logs n (Frame.body n s callee (r, c')) := by
          cases callee with
          | function g params body =>
            cases r with
            | error stop => rfl
            | ok vs =>
              rw [Frame.body, Frame.body]
              split
              · next hn =>
                have hadmits : (s.enter params vs).Admits a body := (hkeeps _ hx).admits hn
                rw [Frame.logs_singleton, Frame.logs_singleton]
                exact ih hadmits (fun x v hv => hvs vs rfl v (Scope.enter_locals_get? hv)) hc
              · rfl
          | _ => rfl
        change args.mapM (evalWithin n s) b = (r, c) at hb
        change args.mapM (evalWithin n s) b' = (r, c') at hb'
        rw [hb, hb']
        refine (Frame.logs_append n _ _).trans (Eq.trans ?_ (Frame.logs_append n _ _).symm)
        exact congrArg₂ _ (hchildren rfl) hbody
    | list items =>
      refine Uniform.logs_sequence (P := fun _ => True) (fun c hc => ?_)
        (fun c hc => hchild c hc rfl) h
      exact (huniform c hc rfl).bind fun v _ => Uniform.composes.element v
    | assign x value =>
      rw [Frame.entered, Frame.entered]
      cases s.constants.contains x with
      | true => rfl
      | false =>
        rw [if_neg Bool.false_ne_true, if_neg Bool.false_ne_true]
        refine (Frame.logs_singleton n _).trans (Eq.trans ?_ (Frame.logs_singleton n _).symm)
        exact hchild value List.mem_cons_self rfl b b' h

namespace Expr

variable {limit : Int}

/-- Evaluations may read the relevant names and may write any. -/
def relevance (constants assigned : Bindings) (e : Expr) :
    Access := ⟨Relevant constants assigned e, fun _ => True⟩

theorem Relevant.keepsTo {x f : String} {params : List String} {body : Expr}
    (hx : Relevant constants b e x)
    (hf : constants.get? x = some (.function f params body) ∨
    b.get? x = some (.function f params body))
    (hbody : body.DefinesNone) :
    (Value.function f params body).KeepsTo (relevance constants b e) where
  reads _ hy hp := .called hx hf (mem_names.mpr (.child List.mem_cons_self hp hy))
  writes _ _ := trivial
  definesNone := hbody

theorem agree_of_relevant (hconstants : constants.FlatFunctions) (hb : b.FlatFunctions)
    (same : ∀ x, Relevant constants b e x → b.get? x = b'.get? x) :
    Agree (relevance constants b e) constants b b' where
  same x hx := by rw [globals, globals, same x hx]
  keeps x v hx hv := by
    cases v with
    | function f params body =>
      rcases Option.or_eq_some_iff.mp hv with hv | ⟨-, hv⟩
      · exact hx.keepsTo (.inl hv) (hconstants x f params body hv)
      · exact hx.keepsTo (.inr hv) (hb x f params body hv)
    | _ => trivial

theorem admits_relevance (he : ∀ f params body, e.Contains (.define f params body) →
    body.DefinesNone) : Scope.Admits { constants, limit } (relevance constants b e) e where
  reads _ hx _ := .read (mem_names.mpr hx)
  writes _ _ := trivial
  define f params body hd := ⟨he f params body hd, fun _ => rfl⟩

/-- An evaluation depends on the relevant names alone: where these have the same values, it comes to
the same result and stores the same values, in the same order, and nothing but these. -/
theorem eval_congr_of_relevant (e : Expr) (constants : Bindings) (limit : Int) (b b' : Bindings)
    (he : ∀ f params body, e.Contains (.define f params body) → body.DefinesNone)
    (hconstants : constants.FlatFunctions) (hb : b.FlatFunctions)
    (same : ∀ x, Relevant constants b e x → b.get? x = b'.get? x) :
    ∃ r ws, e.eval { constants, limit } b = (r, b.insertAll ws) ∧
      e.eval { constants, limit } b' = (r, b'.insertAll ws) ∧
      e.log { constants, limit } b = ws ∧ e.log { constants, limit } b' = ws := by
  have hagree := agree_of_relevant hconstants hb same
  have hadmits : Scope.Admits { constants, limit } (relevance constants b e) e :=
    admits_relevance he
  have hlocals (x : String) (v : Value) (hv : Bindings.get? {} x = some v) :
      v.KeepsTo (relevance constants b e) := by cases hv
  have hlog := logWithin_congr (n := (limit + 1).toNat) hadmits hlocals hagree
  obtain ⟨r, c, c', hrun, hrun', -⟩ :=
    (uniform_evalWithin (limit + 1).toNat hadmits hlocals).ends hagree
  have hleaves (b : Bindings) := Frame.run_snd_log ⟨(limit + 1).toNat, { constants, limit }, e, b⟩
  refine ⟨r, e.log { constants, limit } b, ?_, ?_, rfl, hlog.symm⟩
  · exact hrun.trans (Prod.ext rfl ((congrArg Prod.snd hrun).symm.trans (hleaves b)))
  · refine hrun'.trans (Prod.ext rfl ((congrArg Prod.snd hrun').symm.trans ((hleaves b').trans ?_)))
    exact congrArg b'.insertAll hlog.symm

theorem definesNone_name (x : String) : (name x).DefinesNone := by
  intro f params body hd
  rcases hd.cases_head with heq | ⟨c, hc, -⟩
  · cases heq
  · cases hc

theorem DefinesNone.binary {op : BinaryOp} {l r : Expr} (hl : l.DefinesNone) (hr : r.DefinesNone) :
    (binary op l r).DefinesNone := by
  intro f params body hd
  rcases hd.cases_head with heq | ⟨c, hc, hin⟩
  · cases heq
  · rcases List.mem_cons.mp hc with rfl | hc
    · exact hl f params body hin
    · obtain rfl := List.mem_singleton.mp hc
      exact hr f params body hin

def storedCall : Expr := .assign "w" (.call "f" [.name "k"])

def callVariables (other : Value) : Bindings :=
  .ofPairs [("f", .function "f" ["x"] (.mul (.name "x") (.name "y"))),
    ("y", .scalar ⟨3, 0, .none, 0⟩), ("z", other)]

def callConstants : Bindings := .ofPairs [("k", .scalar ⟨2, 0, .none, 0⟩)]

theorem callVariables_function {other : Value} (ho : other.IsData) {x f : String}
    {params : List String} {body : Expr}
    (h : (callVariables other).get? x = some (.function f params body)) :
    x = "f" ∧ f = "f" ∧ params = ["x"] ∧ body = .mul (.name "x") (.name "y") := by
  rcases Bindings.mem_or_get?_of_get?_insertAll h with hmem | hempty
  · simp only [List.mem_cons, Prod.mk.injEq, reduceCtorEq, and_false, List.not_mem_nil, or_false,
      false_or] at hmem
    rcases hmem with ⟨rfl, hv⟩ | ⟨-, rfl⟩
    · cases hv
      exact ⟨rfl, rfl, rfl, rfl⟩
    · exact (ho rfl).elim
  · cases hempty

theorem callConstants_function {x f : String} {params : List String} {body : Expr}
    (h : callConstants.get? x = some (.function f params body)) : False := by
  rcases Bindings.mem_or_get?_of_get?_insertAll h with hmem | hempty
  · simp at hmem
  · cases hempty

theorem storedCall_relevant {other : Value} (ho : other.IsData) {x : String}
    (hx : Relevant callConstants (callVariables other) storedCall x) : x ∈ ["f", "k", "y"] := by
  cases hx with
  | read hx =>
    have hnames : storedCall.names = ["k", "f"] := by decide
    rw [hnames] at hx
    simp only [List.mem_cons, List.not_mem_nil, or_false] at hx
    rcases hx with rfl | rfl <;> simp
  | called hy hf hx =>
    rcases hf with hf | hf
    · exact (callConstants_function hf).elim
    · obtain ⟨-, rfl, rfl, rfl⟩ := callVariables_function ho hf
      have hnames :
          (Expr.define "f" ["x"] (.mul (.name "x") (.name "y"))).names = ["y"] := by decide
      rw [hnames] at hx
      simp [List.mem_singleton.mp hx]

theorem storedCall_congr :
    (callVariables (.boolean true)).get? "z" ≠ (callVariables (.list [])).get? "z" ∧
    ∃ r ws,
      storedCall.eval { constants := callConstants, limit := 8 } (callVariables (.boolean true)) =
        (r, (callVariables (.boolean true)).insertAll ws) ∧
      storedCall.eval { constants := callConstants, limit := 8 } (callVariables (.list [])) =
        (r, (callVariables (.list [])).insertAll ws) ∧
      storedCall.log { constants := callConstants, limit := 8 }
        (callVariables (.boolean true)) = ws ∧
      storedCall.log { constants := callConstants, limit := 8 }
        (callVariables (.list [])) = ws := by
  refine ⟨nofun, eval_congr_of_relevant storedCall callConstants 8 _ _ ?_ ?_ ?_ ?_⟩
  · intro f params body hd
    rcases hd.cases_head with heq | ⟨c, hc, hd⟩
    · cases heq
    · obtain rfl := List.mem_singleton.mp hc
      rcases hd.cases_head with heq | ⟨c, hc, hd⟩
      · cases heq
      · obtain rfl := List.mem_singleton.mp hc
        exact (definesNone_name "k" f params body hd).elim
  · exact fun x f params body h => (callConstants_function h).elim
  · intro x f params body h
    obtain ⟨-, -, -, rfl⟩ := callVariables_function (Value.boolean_isData true) h
    exact (definesNone_name "x").binary (definesNone_name "y")
  · intro x hx
    have hmem := storedCall_relevant (Value.boolean_isData true) hx
    simp only [List.mem_cons, List.not_mem_nil, or_false] at hmem
    rcases hmem with rfl | rfl | rfl <;> rfl

end Expr

end UnitSheet
