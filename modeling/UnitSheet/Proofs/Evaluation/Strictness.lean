import UnitSheet.Proofs.Evaluation.Log
import UnitSheet.Proofs.Evaluation.Stopping
import UnitSheet.Proofs.Expr.Nodes
import UnitSheet.Proofs.Value.Refusal

namespace UnitSheet

open UnitSheet.Expr UnitSheet.Computation Relation

variable {b b' d : Bindings} {s : Scope} {e c : Expr} {n : Nat} {v : Value} {x : String}

/-- Names that are bound stay bound. -/
def Bindings.Grows (b b' : Bindings) : Prop := ∀ x, b.get? x ≠ none → b'.get? x ≠ none

namespace Bindings.Grows

theorem refl (b : Bindings) : b.Grows b := fun _ h => h

theorem trans (h : b.Grows b') (h' : b'.Grows d) : b.Grows d := fun x hx => h' x (h x hx)

theorem insert (h : b.Grows b') (x : String) (v : Value) : b.Grows (b'.insert x v) := by
  intro y hy
  rw [get?_insert]
  split
  · exact Option.some_ne_none v
  · exact h y hy

theorem scope_get? (h : b.Grows b') (hx : s.get? b x ≠ none) : s.get? b' x ≠ none := by
  have hbound (assigned : Bindings) : s.get? assigned x = none ↔
      s.locals.get? x = none ∧ s.constants.get? x = none ∧ assigned.get? x = none := by
    rw [Scope.get?, Option.or_eq_none_iff, Option.or_eq_none_iff]
  intro hnone
  obtain ⟨hl, hc, hb'⟩ := (hbound b').mp hnone
  have hb : b.get? x ≠ none := fun hb => hx ((hbound b).mpr ⟨hl, hc, hb⟩)
  exact h x hb hb'

end Bindings.Grows

theorem Frame.grows_run (f : Frame) : f.assigned.Grows f.run.2 :=
  run_invariant (I := f.assigned.Grows) (.refl _) fun _ _ x v _ _ _ hb => hb.insert x v

theorem grows_mapM {α : Type} {m : Expr → Evaluation α} {es : List Expr} {r : Except Stop (List α)}
    (hm : ∀ e (b : Bindings), b.Grows (m e b).2) (h : es.mapM m b = (r, b')) : b.Grows b' := by
  have hgrows : b.Grows (es.mapM m b).2 :=
    mapM_invariant (I := b.Grows) (.refl b) fun _ a _ t _ _ ht => ht.trans (hm a t)
  rwa [h] at hgrows

namespace Expr

theorem grows_evalWithin {r : Except Stop Value} (h : evalWithin n s e b = (r, b')) :
    b.Grows b' := by
  have hgrows := Frame.grows_run ⟨n, s, e, b⟩
  rwa [Frame.run, h] at hgrows

/-- An operand that has come to a value, on the way of an evaluation to the variables that it
leaves. -/
def Done (n : Nat) (s : Scope) (c : Expr) (b' : Bindings) : Prop :=
  ∃ b v d, evalWithin n s c b = (.ok v, d) ∧ d.Grows b'

theorem Done.grows (h : Done n s c b) (hb : b.Grows b') : Done n s c b' := by
  obtain ⟨b₀, v, d, hrun, hd⟩ := h
  exact ⟨b₀, v, d, hrun, hd.trans hb⟩

theorem done_of_mapM {args : List Expr} {vs : List Value}
    (h : args.mapM (evalWithin n s) b = (.ok vs, b')) (hc : c ∈ args) : Done n s c b' := by
  obtain ⟨u, v, d, hrun, rest, ws, hrest⟩ := mapM_ok_of_mem h hc
  exact ⟨u, v, d, hrun, grows_mapM (fun e b => Frame.grows_run ⟨n, s, e, b⟩) hrest⟩

theorem done_of_items {items : List Expr} {qs : List Quantity}
    (h : items.mapM (fun c => evalWithin n s c >>= Evaluation.element) b = (.ok qs, b'))
    (hc : c ∈ items) : Done n s c b' := by
  have helement (c : Expr) (b : Bindings) :
      b.Grows ((evalWithin n s c >>= Evaluation.element) b).2 := by
    rw [bind_snd_of_quiet Evaluation.element_snd]
    exact Frame.grows_run ⟨n, s, c, b⟩
  obtain ⟨u, q, d, hrun, rest, ws, hrest⟩ := mapM_ok_of_mem h hc
  obtain ⟨v, d', hrun, hq⟩ := bind_eq_ok_iff.mp hrun
  have hsame : d = d' := by
    have hsnd := Evaluation.element_snd v d'
    rwa [hq] at hsnd
  exact ⟨u, v, d', hrun, hsame ▸ grows_mapM helement hrest⟩

theorem done_of_builtin {f : Builtin} {args : List Expr} {special : Option Expr}
    (h : evalWithin (n + 1) s (.builtin f args special) b = (.ok v, b'))
    (hc : c ∈ args ++ special.toList) : Done n s c b' := by
  obtain ⟨vs, b₁, hargs, h⟩ := bind_eq_ok_iff.mp h
  obtain ⟨w, b₂, hspecial, h⟩ := bind_eq_ok_iff.mp h
  obtain ⟨-, rfl⟩ := Prod.mk.inj h
  cases special with
  | none =>
    cases hspecial
    exact done_of_mapM hargs (by simpa using hc)
  | some special =>
    obtain ⟨u, b₃, hrun, h⟩ := bind_eq_ok_iff.mp hspecial
    cases h
    rcases List.mem_append.mp hc with hc | hc
    · exact (done_of_mapM hargs hc).grows (grows_evalWithin hrun)
    · obtain rfl := List.mem_singleton.mp hc
      exact ⟨b₁, u, b₂, hrun, .refl _⟩

theorem done_of_call {f : String} {args : List Expr}
    (h : evalWithin (n + 1) s (.call f args) b = (.ok v, b')) (hc : c ∈ args) : Done n s c b' := by
  obtain ⟨callee, b₀, hf, h⟩ := bind_eq_ok_iff.mp h
  obtain ⟨vs, b₁, hargs, h⟩ := bind_eq_ok_iff.mp h
  refine (done_of_mapM hargs hc).grows ?_
  cases callee with
  | function k params body =>
    dsimp only at h
    split at h
    · exact grows_evalWithin h
    · cases h
  | _ =>
    dsimp only at h
    split at h
    · obtain ⟨-, rfl⟩ := Prod.mk.inj h
      exact .refl _
    · cases h

theorem done_of_ok (he : ∀ f params body, e ≠ .define f params body)
    (h : evalWithin (n + 1) s e b = (.ok v, b')) (hc : c ∈ e.children) : Done n s c b' := by
  cases e with
  | literal | name => cases hc
  | binary op left right =>
    obtain ⟨u, b₁, hl, h⟩ := bind_eq_ok_iff.mp h
    obtain ⟨w, b₂, hr, h⟩ := bind_eq_ok_iff.mp h
    obtain ⟨-, rfl⟩ := Prod.mk.inj h
    rcases List.mem_cons.mp hc with rfl | hc
    · exact ⟨b, u, b₁, hl, grows_evalWithin hr⟩
    · obtain rfl := List.mem_singleton.mp hc
      exact ⟨b₁, w, b₂, hr, .refl _⟩
  | unary op operand =>
    obtain ⟨u, b₁, hrun, h⟩ := bind_eq_ok_iff.mp h
    obtain ⟨-, rfl⟩ := Prod.mk.inj h
    obtain rfl := List.mem_singleton.mp hc
    exact ⟨b, u, b₁, hrun, .refl _⟩
  | builtin f args special => exact done_of_builtin h hc
  | call f args => exact done_of_call h hc
  | list items =>
    obtain ⟨qs, b₁, hitems, h⟩ := bind_eq_ok_iff.mp h
    cases h
    exact done_of_items hitems hc
  | assign x value =>
    obtain ⟨_, b₀, hx, h⟩ := bind_eq_ok_iff.mp h
    obtain ⟨u, b₁, hrun, h⟩ := bind_eq_ok_iff.mp h
    cases h
    obtain rfl := List.mem_singleton.mp hc
    exact ⟨b₀, v, b₁, hrun, (Bindings.Grows.refl b₁).insert x v⟩
  | define f params body => exact (he f params body rfl).elim

theorem DefinesNone.ne_define (he : e.DefinesNone) (f : String) (params : List String)
    (body : Expr) : e ≠ .define f params body := by
  rintro rfl
  exact he f params body .refl

theorem DefinesNone.child (he : e.DefinesNone) (hc : c ∈ e.children) : c.DefinesNone :=
  fun f params body hd => he f params body (.head hc hd)

theorem bound_of_ok (he : e.DefinesNone) (hx : Free x e) (h : evalWithin n s e b = (.ok v, b')) :
    s.get? b' x ≠ none := by
  induction hx generalizing n b v b' with
  | @head e hhead =>
    cases n with
    | zero => cases h
    | succ n =>
      apply (grows_evalWithin h).scope_get?
      intro hnone
      have hlookup := Evaluation.lookup_none hnone
      cases e with
      | name y =>
        cases hhead
        rw [evalWithin, hlookup] at h
        cases h
      | call y args =>
        cases hhead
        rw [evalWithin, bind_error hlookup] at h
        cases h
      | _ => cases hhead
  | @child e c hc _ _ ih =>
    cases n with
    | zero => cases h
    | succ n =>
      obtain ⟨b₁, w, d, hrun, hd⟩ := done_of_ok he.ne_define h hc
      exact hd.scope_get? (ih (he.child hc) hrun)

/-- The names that an expression can come to read: its own, and those of the functions that such
names are bound to. -/
inductive Consults (constants assigned : Bindings) (e : Expr) : String → Prop
  | read {x : String} (hx : x ∈ e.names) : Consults constants assigned e x
  | called {x y f : String} {params : List String} {body : Expr}
      (hy : Consults constants assigned e y)
      (hf : globals constants assigned y = some (.function f params body))
      (hx : x ∈ (Expr.define f params body).names) : Consults constants assigned e x

end Expr

namespace Frame

variable {f g : Frame} {stop : Stop}

theorem Stops.isRefusal_or (h : Stops g stop b) : stop.IsRefusal ∨
    (g.levels = 0 ∧ stop = .eval (.nestedTooDeep g.scope.limit)) ∨
    (∃ x, stop = .eval (.unknownName x) ∧ g.scope.get? g.assigned x = none ∧ b = g.assigned) ∨
    ∃ x, stop = .eval (.assignToConstant x) := by
  cases h with
  | nesting => exact .inr (.inl ⟨rfl, rfl⟩)
  | name hx | callee hx => exact .inr (.inr (.inl ⟨_, rfl, hx, rfl⟩))
  | constant ht hx => exact .inr (.inr (.inr ⟨_, rfl⟩))
  | binary _ _ he => exact .inl (Value.isRefusal_of_binary he)
  | unary _ he => exact .inl (Value.isRefusal_of_unary he)
  | builtin _ _ he => exact .inl (Builtin.isRefusal_of_apply he)
  | factor _ _ _ he => exact .inl (Value.isRefusal_of_broadcast he)
  | arity | notFunction | item => exact .inl trivial

theorem Stops.unknownName (h : Stops g (.eval (.unknownName x)) b) :
    g.scope.get? g.assigned x = none ∧ b = g.assigned := by
  rcases h.isRefusal_or with h | ⟨-, h⟩ | ⟨y, h, hy⟩ | ⟨y, h⟩
  · cases h
  · cases h
  · cases h
    exact hy
  · cases h

/-- A name that is missed is bound nowhere outside of functions, neither before nor after the
evaluation. -/
theorem unbound_of_unknownName (h : f.run = (.error (.eval (.unknownName x)), b)) :
    f.scope.constants.get? x = none ∧ f.assigned.get? x = none ∧ b.get? x = none := by
  have hgrows := f.grows_run
  rw [h] at hgrows
  obtain ⟨g, hg, hstop⟩ := run_eq_error_iff.mp h
  obtain ⟨hx, rfl⟩ := hstop.unknownName
  obtain ⟨-, hx⟩ := Option.or_eq_none_iff.mp hx
  obtain ⟨hconstants, hassigned⟩ := Option.or_eq_none_iff.mp hx
  rw [hg.constants_eq] at hconstants
  exact ⟨hconstants, by_contra fun hx => hgrows x hx hassigned, hassigned⟩

end Frame

namespace Expr

variable {constants : Bindings} {limit : Int}

theorem Consults.keepsTo {writes : String → Prop} (hx : Consults constants b e x)
    (hv : globals constants b x = some v) (hwrites : ∀ x, writes x)
    (hflat : ∀ x f params body, Consults constants b e x →
      globals constants b x = some (.function f params body) → body.DefinesNone) :
    v.KeepsTo ⟨Consults constants b e, writes⟩ := by
  cases v with
  | function f params body =>
    exact {
      reads := fun y hy hp => .called hx hv (mem_names.mpr (.child List.mem_cons_self hp hy))
      writes := fun y _ => hwrites y
      definesNone := hflat x f params body hx hv }
  | _ => trivial

theorem consults_of_unknownName (he : ∀ x, ¬ e.Assigns x)
    (hflat : ∀ x f params body, Consults constants b e x →
      globals constants b x = some (.function f params body) → body.DefinesNone)
    (h : evalWithin n { constants, limit } e b = (.error (.eval (.unknownName x)), b')) :
    Consults constants b e x := by
  by_contra hx
  let a : Access := ⟨Consults constants b e, fun _ => True⟩
  let s : Scope := { constants, limit }
  let found := b.insert x (.list [])
  have hagree : Agree a s.constants b found := by
    constructor
    · intro y hy
      have hne : y ≠ x := fun hyx => hx (hyx ▸ hy)
      rw [globals, globals, Bindings.get?_insert, if_neg hne]
    · exact fun y v hy hv => hy.keepsTo hv (fun _ => trivial) hflat
  have hadmits : s.Admits a e :=
    Scope.admits_of_assigns_none he fun y hy => .read (mem_names.mpr hy)
  obtain ⟨r, ws, hrun, hrun', -⟩ :=
    uniform_evalWithin n hadmits (fun y v hv => by cases hv) _ _ hagree
  obtain ⟨rfl, -⟩ := Prod.mk.inj (hrun.symm.trans h)
  have hnone : found.get? x = none :=
    (Frame.unbound_of_unknownName (f := ⟨n, s, e, found⟩) hrun').2.1
  rw [Bindings.get?_insert, if_pos rfl] at hnone
  cases hnone

/-- Outside of functions, an expression without assignments comes to a value only if every name that
it reads has one, and a name that it misses has none and is read by it or by a function that it can
come to. -/
theorem eval_strict_in_names (constants b : Bindings) (limit : Int) (e : Expr)
    (he : ∀ x, ¬ e.Assigns x) :
    (∀ v b', e.eval { constants, limit } b = (.ok v, b') → ∀ x ∈ e.names, globals constants b' x ≠
    none ∧ (globals constants b x ≠ none ∨
        ∃ k l, Frame.Reaches ⟨(limit + 1).toNat, { constants, limit }, e, b⟩ k ∧ Frame.Calls k l ∧
          l.expr.Assigns x)) ∧
    ((∀ x f params body, Consults constants b e x →
        globals constants b x = some (.function f params body) → body.DefinesNone) →
      ∀ x b', e.eval { constants, limit } b = (.error (.eval (.unknownName x)), b') →
        constants.get? x = none ∧ b.get? x = none ∧ b'.get? x = none ∧
          Consults constants b e x) := by
  constructor
  · intro v b' h x hx
    have hbound := bound_of_ok (fun f _ _ hd => he f ⟨_, hd, rfl⟩) (mem_names.mp hx) h
    refine ⟨hbound, ?_⟩
    by_contra hnot
    obtain ⟨hbefore, hcalls⟩ := not_or.mp hnot
    let f : Frame := ⟨(limit + 1).toNat, { constants, limit }, e, b⟩
    have hsame : f.run.2.get? x = b.get? x := Frame.run_get? fun g hg =>
      hg.target_ne (he x) fun k l hk hkl hl => hcalls ⟨k, l, hk, hkl, hl⟩
    have hrun : f.run = (.ok v, b') := h
    rw [hrun] at hsame
    apply hbefore
    rw [globals, ← hsame]
    exact hbound
  · intro hflat x b' h
    obtain ⟨hconstants, hb, hb'⟩ := Frame.unbound_of_unknownName (f := ⟨_, _, e, b⟩) h
    exact ⟨hconstants, hb, hb', consults_of_unknownName he hflat h⟩

def consultingList : Expr := .list [.name "k", .call "f" [.name "k"]]

def scalingFunction : Value := .function "f" ["x"] (.mul (.name "x") (.name "w"))

theorem globals_scalingFunction {f : String} {params : List String} {body : Expr}
    (h : globals (.ofPairs [("k", .scalar ⟨2, 0, .none, 0⟩)]) (.ofPairs [("f", scalingFunction)]) x
    = some (.function f params body)) : body.DefinesNone := by
  have hmul : ∀ x, ¬ (Expr.mul (.name "x") (.name "w")).Assigns x := by decide
  rcases Option.or_eq_some_iff.mp h with h | ⟨-, h⟩
  · rcases Bindings.mem_or_get?_of_get?_insertAll h with hmem | hempty
    · cases List.mem_singleton.mp hmem
    · cases hempty
  · rcases Bindings.mem_or_get?_of_get?_insertAll h with hmem | hempty
    · cases List.mem_singleton.mp hmem
      exact fun f _ _ hd => hmul f ⟨_, hd, rfl⟩
    · cases hempty

theorem consultingList_strict :
    (∀ x, ¬ consultingList.Assigns x) ∧ consultingList.names = ["f", "k"] ∧
    consultingList.eval { constants := .ofPairs [("k", .scalar ⟨2, 0, .none, 0⟩)], limit := 8 }
        (.ofPairs [("f", scalingFunction)]) =
      (.error (.eval (.unknownName "w")), .ofPairs [("f", scalingFunction)]) ∧
    Consults (.ofPairs [("k", .scalar ⟨2, 0, .none, 0⟩)]) (.ofPairs [("f", scalingFunction)])
      consultingList "w" := by
  have hassigns : ∀ x, ¬ consultingList.Assigns x := by decide
  refine ⟨hassigns, by decide, rfl, ?_⟩
  have hstrict := eval_strict_in_names (.ofPairs [("k", .scalar ⟨2, 0, .none, 0⟩)])
    (.ofPairs [("f", scalingFunction)]) 8 consultingList hassigns
  obtain ⟨-, -, -, hw⟩ := hstrict.2 (fun _ _ _ _ _ h => globals_scalingFunction h) "w" _ rfl
  exact hw

end Expr

end UnitSheet
