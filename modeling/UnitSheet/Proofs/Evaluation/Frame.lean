import UnitSheet.Proofs.Evaluation.Operations
import UnitSheet.Proofs.Expr.Names

namespace UnitSheet

open UnitSheet.Expr Relation UnitSheet.Computation

/-- An evaluation that begins. -/
structure Frame where
  levels : Nat
  scope : Scope
  expr : Expr
  assigned : Bindings

namespace Frame

variable {f g : Frame} {x : String} {v : Value} {b : Bindings}

/-- The result of the evaluation and the variables it leaves. -/
def run (f : Frame) : Except Stop Value × Bindings := evalWithin f.levels f.scope f.expr f.assigned

/-- An expression begins to evaluate an operand, when the operands before it have got their
values. -/
inductive Descends : Frame → Frame → Prop
  | left {n s op l r b} : Descends ⟨n + 1, s, .binary op l r, b⟩ ⟨n, s, l, b⟩
  | right {n s op l r b v b'} (hl : evalWithin n s l b = (.ok v, b')) :
      Descends ⟨n + 1, s, .binary op l r, b⟩ ⟨n, s, r, b'⟩
  | operand {n s op e b} : Descends ⟨n + 1, s, .unary op e, b⟩ ⟨n, s, e, b⟩
  | argument {n s k args before a special b vs b'} (hp : before ++ [a] <+: args)
      (hb : before.mapM (evalWithin n s) b = (.ok vs, b')) :
      Descends ⟨n + 1, s, .builtin k args special, b⟩ ⟨n, s, a, b'⟩
  | special {n s k args e b vs b'} (ha : args.mapM (evalWithin n s) b = (.ok vs, b')) :
      Descends ⟨n + 1, s, .builtin k args (some e), b⟩ ⟨n, s, e, b'⟩
  | callArgument {n s x callee args before a b vs b'} (hx : s.get? b x = some callee)
      (hp : before ++ [a] <+: args) (hb : before.mapM (evalWithin n s) b = (.ok vs, b')) :
      Descends ⟨n + 1, s, .call x args, b⟩ ⟨n, s, a, b'⟩
  | item {n s items before a b qs b'} (hp : before ++ [a] <+: items)
      (hb : before.mapM (fun e => evalWithin n s e >>= Evaluation.element) b = (.ok qs, b')) :
      Descends ⟨n + 1, s, .list items, b⟩ ⟨n, s, a, b'⟩
  | value {n s x e b} (hx : s.constants.contains x = false) :
      Descends ⟨n + 1, s, .assign x e, b⟩ ⟨n, s, e, b⟩

inductive Calls : Frame → Frame → Prop
  | body {n s x args b k params body vs b'} (hx : s.get? b x = some (.function k params body))
      (ha : args.mapM (evalWithin n s) b = (.ok vs, b')) (hn : vs.length = params.length) :
      Calls ⟨n + 1, s, .call x args, b⟩ ⟨n, s.enter params vs, body, b'⟩

def Enters (f g : Frame) : Prop := Descends f g ∨ Calls f g

/-- The evaluations inside an evaluation, at any depth. -/
abbrev Inside : Frame → Frame → Prop := TransGen Enters

/-- An evaluation and those inside it. -/
abbrev Reaches : Frame → Frame → Prop := ReflTransGen Enters

/-- The assignment of an evaluation, if it is one, keeps a property of the variables. -/
def Keeps (I : Bindings → Prop) (f : Frame) : Prop :=
  ∀ x v b, f.expr.target? = some x → f.scope.constants.contains x = false → I b → I (b.insert x v)

/-- An assignment or a definition that is carried out, and stores what it comes to. -/
structure Stores (f : Frame) (x : String) (v : Value) : Prop where
  target : f.expr.target? = some x
  assignable : f.scope.constants.contains x = false
  run : ∃ b : Bindings, f.run = (.ok v, b.insert x v)

theorem Descends.mem_children (h : Descends f g) : g.expr ∈ f.expr.children := by
  cases h with
  | argument hp => exact List.mem_append_left _ (hp.subset (by simp))
  | callArgument _ hp | item hp => exact hp.subset (by simp)
  | _ => simp [children]

theorem Descends.scope_eq (h : Descends f g) : g.scope = f.scope := by
  cases h <;> rfl

theorem Enters.constants_eq (h : Enters f g) : g.scope.constants = f.scope.constants := by
  cases h with
  | inl h => rw [h.scope_eq]
  | inr h => cases h with | body => rfl

theorem Reaches.constants_eq (h : Reaches f g) : g.scope.constants = f.scope.constants := by
  induction h with
  | refl => rfl
  | tail _ h ih => rw [h.constants_eq, ih]

/-- What is true of the variables, and stays true with every value that is stored, is true at the
end. -/
theorem run_invariant_of_stores {I : Bindings → Prop} (hI : I f.assigned)
    (hw : ∀ g x v b, Reaches f g → g.Stores x v → I b → I (b.insert x v)) : I f.run.2 := by
  obtain ⟨n, s, e, b⟩ := f
  induction n generalizing s e b with
  | zero => exact hI
  | succ n ih =>
    have hinside {s' e' b'} (he : Enters ⟨n + 1, s, e, b⟩ ⟨n, s', e', b'⟩) (hb' : I b') :
        I (evalWithin n s' e' b').2 :=
      ih s' e' b' hb' fun g x v b hg => hw g x v b (.head he hg)
    cases e with
    | literal l => exact hI
    | name x =>
      change I (Evaluation.lookup s x b).2
      rw [Evaluation.lookup_snd]
      exact hI
    | binary op l r =>
      apply bind_invariant (hinside (.inl .left) hI)
      intro v b' hl hb'
      exact bind_invariant (hinside (.inl (.right hl)) hb') fun _ _ _ hr => hr
    | unary op e =>
      exact bind_invariant (hinside (.inl .operand) hI) fun _ _ _ he => he
    | builtin k args special =>
      have hargs : I (args.mapM (evalWithin n s) b).2 :=
        mapM_invariant hI fun _ _ _ _ hp hbefore => hinside (.inl (.argument hp hbefore))
      apply bind_invariant hargs
      intro vs b' ha hb'
      refine bind_invariant ?_ fun _ _ _ hs => hs
      cases special with
      | none => exact hb'
      | some e => exact bind_invariant (hinside (.inl (.special ha)) hb') fun _ _ _ he => he
    | call x args =>
      apply bind_invariant (by rwa [Evaluation.lookup_snd])
      intro callee b₀ hx _
      obtain ⟨hx, rfl⟩ := Evaluation.lookup_eq_ok hx
      have hargs : I (args.mapM (evalWithin n s) b₀).2 :=
        mapM_invariant hI fun _ _ _ _ hp hbefore => hinside (.inl (.callArgument hx hp hbefore))
      apply bind_invariant hargs
      intro vs b' ha hb'
      cases callee with
      | function k params body =>
        dsimp only
        split
        · next hn => exact hinside (.inr (.body hx ha hn)) hb'
        · exact hb'
      | _ => split <;> exact hb'
    | list items =>
      refine bind_invariant (mapM_invariant hI fun _ _ _ _ hp hbefore hb' => ?_) fun _ _ _ hq => hq
      apply bind_invariant (hinside (.inl (.item hp hbefore)) hb')
      intro v _ _ hv
      rwa [Evaluation.element_snd]
    | assign x e =>
      apply bind_invariant (by rwa [Evaluation.assignable_snd])
      intro _ b₀ ha hb₀
      obtain ⟨hx, rfl⟩ := Evaluation.assignable_eq_ok ha
      apply bind_invariant (hinside (.inl (.value hx)) hb₀)
      intro v b' hv hb'
      have hrun : evalWithin (n + 1) s (.assign x e) b₀ = (.ok v, b'.insert x v) := by
        rw [evalWithin, bind_ok ha, bind_ok hv]
        rfl
      exact hw _ x v b' .refl ⟨rfl, hx, b', hrun⟩ hb'
    | define k params body =>
      apply bind_invariant (by rwa [Evaluation.assignable_snd])
      intro _ b₀ ha hb₀
      obtain ⟨hk, rfl⟩ := Evaluation.assignable_eq_ok ha
      have hrun : evalWithin (n + 1) s (.define k params body) b₀ =
          (.ok (.function k params body), b₀.insert k (.function k params body)) := by
        rw [evalWithin, bind_ok ha]
        rfl
      exact hw _ k _ b₀ .refl ⟨rfl, hk, b₀, hrun⟩ hb₀

/-- What every assignment keeps, the evaluation keeps. -/
theorem run_invariant {I : Bindings → Prop} (hI : I f.assigned)
    (hw : ∀ g, Reaches f g → g.Keeps I) : I f.run.2 :=
  run_invariant_of_stores hI fun g x v b hg hs => hw g hg x v b hs.target hs.assignable

theorem Enters.invariant {I : Bindings → Prop} (h : Enters f g) (hI : I f.assigned)
    (hw : ∀ k, Inside f k → k.Keeps I) : I g.assigned := by
  have hinside {k : Frame} (he : Enters f k) (hk : I k.assigned) : I k.run.2 :=
    run_invariant hk fun l hl => hw l (.head' he hl)
  have hargs {n s as b vs b'} (hb : I b) (h : List.mapM (evalWithin n s) as b = (.ok vs, b'))
      (he : ∀ before a ws c, before ++ [a] <+: as → before.mapM (evalWithin n s) b = (.ok ws, c) →
        Enters f ⟨n, s, a, c⟩) : I b' := by
    have hend : I (List.mapM (evalWithin n s) as b).2 :=
      mapM_invariant hb fun before a ws c hp hbefore => hinside (he before a ws c hp hbefore)
    rwa [h] at hend
  cases h with
  | inl h =>
    cases h with
    | left | operand | value => exact hI
    | right hl =>
      have hend := hinside (.inl .left) hI
      rwa [run, hl] at hend
    | argument hp hb =>
      refine hargs hI hb fun before' _ _ _ hq hbefore => .inl (.argument ?_ hbefore)
      exact hq.trans ((List.prefix_append _ _).trans hp)
    | special ha => exact hargs hI ha fun _ _ _ _ hp hbefore => .inl (.argument hp hbefore)
    | callArgument hx hp hb =>
      refine hargs hI hb fun before' _ _ _ hq hbefore => .inl (.callArgument hx ?_ hbefore)
      exact hq.trans ((List.prefix_append _ _).trans hp)
    | @item n s items before a b qs b' hp hb =>
      have hend : I (before.mapM (fun e => evalWithin n s e >>= Evaluation.element) b).2 := by
        apply mapM_invariant hI
        intro before' a' ws c hq hbefore hc
        have he : Enters ⟨n + 1, s, .list items, b⟩ ⟨n, s, a', c⟩ :=
          .inl (.item (hq.trans ((List.prefix_append _ _).trans hp)) hbefore)
        apply bind_invariant (hinside he hc)
        intro v _ _ hv
        rwa [Evaluation.element_snd]
      rwa [hb] at hend
  | inr h =>
    cases h with
    | body hx ha => exact hargs hI ha fun _ _ _ _ hp hbefore => .inl (.callArgument hx hp hbefore)

theorem Reaches.invariant {I : Bindings → Prop} (h : Reaches f g) (hI : I f.assigned)
    (hw : ∀ k, Inside f k → k.Keeps I) : I g.assigned := by
  induction h with
  | refl => exact hI
  | tail hr he ih => exact he.invariant ih fun k hk => hw k (.trans_right hr hk)

/-- An expression inside an evaluation is a part of its expression, or of a function body called
inside. -/
theorem Reaches.contains (h : Reaches f g) :
    f.expr.Contains g.expr ∨ ∃ k l, Reaches f k ∧ Calls k l ∧ l.expr.Contains g.expr := by
  induction h with
  | refl => exact .inl .refl
  | @tail g g' hr he ih =>
    cases he with
    | inl hd =>
      rcases ih with hc | ⟨k, l, hk, hkl, hc⟩
      · exact .inl (hc.tail hd.mem_children)
      · exact .inr ⟨k, l, hk, hkl, hc.tail hd.mem_children⟩
    | inr hc => exact .inr ⟨g, g', hr, hc, .refl⟩

theorem Reaches.not_calls (h : Reaches f g) (he : ∀ x args, ¬ f.expr.Contains (.call x args)) :
    ∀ l, ¬ Calls g l := by
  have hcontains : f.expr.Contains g.expr := by
    induction h with
    | refl => exact .refl
    | @tail k g' _ hstep ih =>
      cases hstep with
      | inl hd => exact ih.tail hd.mem_children
      | inr hc => cases hc with | body => exact (he _ _ ih).elim
  intro l hc
  cases hc with
  | body => exact he _ _ hcontains

theorem Reaches.target_ne (h : Reaches f g) (he : ¬ f.expr.Assigns x)
    (hb : ∀ k l, Reaches f k → Calls k l → ¬ l.expr.Assigns x) : g.expr.target? ≠ some x := by
  intro hx
  rcases h.contains with hc | ⟨k, l, hk, hkl, hc⟩
  · exact he ⟨g.expr, hc, hx⟩
  · exact hb k l hk hkl ⟨g.expr, hc, hx⟩

theorem Inside.target_ne (h : Inside f g) (he : ¬ f.expr.AssignsBelow x)
    (hb : ∀ k l, Reaches f k → Calls k l → ¬ l.expr.Assigns x) : g.expr.target? ≠ some x := by
  obtain ⟨k, hfk, hkg⟩ := TransGen.head'_iff.mp h
  have hk : ¬ k.expr.Assigns x := by
    cases hfk with
    | inl hd => exact fun hx => he ⟨k.expr, hd.mem_children, hx⟩
    | inr hc => exact hb f k .refl hc
  exact Reaches.target_ne hkg hk fun l m hl => hb l m (.head hfk hl)

theorem keeps_get? {w : Option Value} (h : f.expr.target? ≠ some x) :
    f.Keeps fun b => b.get? x = w := by
  intro y v b hy _ hb
  have hne : x ≠ y := fun hxy => h (hxy ▸ hy)
  exact (Bindings.get?_insert b y x v).trans ((if_neg hne).trans hb)

/-- An evaluation leaves a variable alone that it never assigns to. -/
theorem run_get? (h : ∀ g, Reaches f g → g.expr.target? ≠ some x) :
    f.run.2.get? x = f.assigned.get? x :=
  run_invariant (I := fun b => b.get? x = f.assigned.get? x) rfl fun g hg => keeps_get? (h g hg)

theorem Reaches.get? (hr : Reaches f g) (h : ∀ k, Inside f k → k.expr.target? ≠ some x) :
    g.assigned.get? x = f.assigned.get? x :=
  hr.invariant (I := fun b => b.get? x = f.assigned.get? x) rfl fun k hk => keeps_get? (h k hk)

theorem run_target (h : f.run = (.ok v, b)) (hx : f.expr.target? = some x) : b.get? x = some v := by
  obtain ⟨n, s, e, b₀⟩ := f
  cases n with
  | zero => cases h
  | succ n =>
    cases e with
    | assign y e =>
      cases hx
      obtain ⟨-, b₁, -, h⟩ := bind_eq_ok_iff.mp h
      obtain ⟨w, b₂, -, h⟩ := bind_eq_ok_iff.mp h
      cases h
      rw [Bindings.get?_insert, if_pos rfl]
    | define k params body =>
      cases hx
      obtain ⟨-, b₁, -, h⟩ := bind_eq_ok_iff.mp h
      cases h
      rw [Bindings.get?_insert, if_pos rfl]
    | _ => cases hx

end Frame

end UnitSheet
