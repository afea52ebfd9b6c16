import Mathlib.Data.Set.Finite.Lattice
import UnitSheet.Proofs.Evaluation.Strictness

namespace UnitSheet

open UnitSheet.Expr UnitSheet.Computation Relation

namespace Evaluation

variable {α β : Type} {limit : Int} {m m' : Evaluation α} {f f' : α → Evaluation β}

/-- Work with a limit of nesting does the same as other work, or stops at the limit. -/
def CutsOff (limit : Int) (m m' : Evaluation α) : Prop :=
  ∀ b, m b = m' b ∨ ∃ b', m b = (.error (.eval (.nestedTooDeep limit)), b')

namespace CutsOff

theorem refl (m : Evaluation α) : CutsOff limit m m := fun _ => .inl rfl

theorem bind (hm : CutsOff limit m m') (hf : ∀ a, CutsOff limit (f a) (f' a)) :
    CutsOff limit (m >>= f) (m' >>= f') := by
  intro b
  rcases hm b with heq | ⟨b', htoo⟩
  · rcases hrun : m' b with ⟨r, c⟩
    rw [hrun] at heq
    cases r with
    | error e => exact .inl ((bind_error heq).trans (bind_error hrun).symm)
    | ok a =>
      rw [bind_ok heq, bind_ok hrun]
      exact hf a c
  · exact .inr ⟨b', bind_error htoo⟩

theorem mapM {g g' : β → Evaluation α} (h : ∀ c, CutsOff limit (g c) (g' c)) (cs : List β) :
    CutsOff limit (cs.mapM g) (cs.mapM g') := by
  induction cs with
  | nil => exact .refl _
  | cons c cs ih =>
    rw [List.mapM_cons, List.mapM_cons]
    exact (h c).bind fun a => ih.bind fun as => .refl _

theorem special {g g' : β → Evaluation α} (h : ∀ c, CutsOff limit (g c) (g' c)) (c : Option β) :
    CutsOff limit (c.mapM g) (c.mapM g') := by
  cases c with
  | none => exact .refl _
  | some c => exact (h c).bind fun a => .refl _

end CutsOff

end Evaluation

open Evaluation

variable {n m : Nat} {s : Scope} {e c : Expr} {b b' : Bindings} {v : Value} {limit : Int}

theorem Expr.evalWithin_cutsOff (hn : n ≤ m) (limit' : Int) (s : Scope) (e : Expr) :
    CutsOff s.limit (evalWithin n s e) (evalWithin m { s with limit := limit' } e) := by
  induction n generalizing m s e with
  | zero => exact fun b => .inr ⟨b, rfl⟩
  | succ n ih =>
    obtain ⟨m, rfl⟩ := Nat.exists_eq_add_of_le' hn
    have hinside (s : Scope) (c : Expr) :
        CutsOff s.limit (evalWithin n s c) (evalWithin (m + n) { s with limit := limit' } c) :=
      ih (Nat.le_add_left n m) s c
    cases e with
    | literal l => exact .refl _
    | name x => exact .refl _
    | binary op left right =>
      exact (hinside s left).bind fun _ => (hinside s right).bind fun _ => .refl _
    | unary op operand => exact (hinside s operand).bind fun _ => .refl _
    | builtin f args special =>
      exact (CutsOff.mapM (hinside s) args).bind fun _ => (CutsOff.special (hinside s) special).bind
        fun _ => .refl _
    | call f args =>
      refine (CutsOff.refl (lookup s f)).bind fun callee => (CutsOff.mapM (hinside s) args).bind
        fun vs => ?_
      cases callee with
      | function k params body =>
        dsimp only
        split
        · exact hinside (s.enter params vs) body
        · exact .refl _
      | _ => exact .refl _
    | list items =>
      exact (CutsOff.mapM (fun c => (hinside s c).bind fun _ => .refl _) items).bind
        fun _ => .refl _
    | assign x value =>
      exact (CutsOff.refl (assignable s x)).bind fun _ => (hinside s value).bind fun _ => .refl _
    | define f params body => exact .refl _

namespace Frame

variable {f g : Frame}

/-- An evaluation begins finitely many others, however functions call each other. -/
theorem finite_reaches (f : Frame) : {g | Reaches f g}.Finite := by
  obtain ⟨n, s, e, b⟩ := f
  induction n generalizing s e b with
  | zero =>
    apply (Set.finite_singleton (⟨0, s, e, b⟩ : Frame)).subset
    intro g hg
    rcases ReflTransGen.cases_head hg with rfl | ⟨k, hk, -⟩
    · rfl
    · cases hk.levels_eq
  | succ n ih =>
    have hinside : (⋃ k ∈ {k | k ∈ entered n s e b}, {g | Reaches k g}).Finite := by
      refine Set.Finite.biUnion (List.finite_toSet _) fun k hk => ?_
      have hlevels : n = k.levels := Nat.succ.inj (enters_of_mem_entered hk).levels_eq
      rw [show k = ⟨n, k.scope, k.expr, k.assigned⟩ by rw [hlevels]]
      exact ih k.scope k.expr k.assigned
    apply (hinside.insert ⟨n + 1, s, e, b⟩).subset
    intro g hg
    rcases ReflTransGen.cases_head hg with rfl | ⟨k, hk, hg⟩
    · exact Set.mem_insert _ _
    · exact Set.mem_insert_of_mem _ (Set.mem_biUnion (mem_entered_of_enters hk) hg)

theorem Stops.nestedTooDeep (h : Stops g (.eval (.nestedTooDeep limit)) b) : g.levels = 0 := by
  rcases h.isRefusal_or with h | ⟨hlevels, -⟩ | ⟨y, h, -⟩ | ⟨y, h⟩
  · cases h
  · exact hlevels
  · cases h
  · cases h

/-- As long as no function is called, the levels that are left are enough for the longest path
below. -/
theorem Reaches.height_le (h : Reaches f g) (hcalls : ∀ k l, Reaches f k → ¬ Calls k l)
    (hf : f.expr.height ≤ f.levels) : g.expr.height ≤ g.levels := by
  induction h with
  | refl => exact hf
  | @tail k g hk he ih =>
    have hdescends : Descends k g := he.resolve_right (hcalls k g hk)
    rw [he.levels_eq] at ih
    exact height_le_succ_iff.mp ih g.expr hdescends.mem_children

end Frame

namespace Expr

theorem height_le_of_ok (he : e.DefinesNone) (h : evalWithin n s e b = (.ok v, b')) :
    e.height ≤ n := by
  induction n generalizing e b v b' with
  | zero => cases h
  | succ n ih =>
    rw [height_le_succ_iff]
    intro c hc
    obtain ⟨b₁, w, d, hrun, -⟩ := done_of_ok he.ne_define h hc
    exact ih (he.child hc) hrun

/-- What the limit of nesting does to an evaluation. A lower limit changes nothing or stops the
evaluation, and the evaluations inside are finitely many under any limit. Where no function is
called, a limit that leaves room for the longest path is enough; where nothing is defined, a result
needs that room. -/
structure LimitsDepth (s : Scope) (e : Expr) (b : Bindings) : Prop where
  cutsOff : ∀ limit limit' : Int, limit ≤ limit' →
    e.eval { s with limit := limit } b = e.eval { s with limit := limit' } b ∨
      ∃ b', e.eval { s with limit := limit } b = (.error (.eval (.nestedTooDeep limit)), b')
  terminates : ∀ limit : Int,
    {g | Frame.Reaches ⟨(limit + 1).toNat, { s with limit := limit }, e, b⟩ g}.Finite
  enough : ∀ limit : Int, e.height ≤ limit + 1 →
    (∀ g k, Frame.Reaches ⟨(limit + 1).toNat, { s with limit := limit }, e, b⟩ g →
      ¬ Frame.Calls g k) →
    ∀ limit' b', e.eval { s with limit := limit } b ≠ (.error (.eval (.nestedTooDeep limit')), b')
  tooDeep : e.DefinesNone → ∀ limit : Int, limit + 1 < e.height →
    ∀ v b', e.eval { s with limit := limit } b ≠ (.ok v, b')

theorem eval_limitsDepth (s : Scope) (e : Expr) (b : Bindings) : LimitsDepth s e b where
  cutsOff limit limit' h := by
    have hlevels : (limit + 1).toNat ≤ (limit' + 1).toNat := Int.toNat_le_toNat (by omega)
    exact evalWithin_cutsOff hlevels limit' { s with limit := limit } e b
  terminates limit := Frame.finite_reaches _
  enough limit h hcalls limit' b' hrun := by
    obtain ⟨g, hg, hstop⟩ := Frame.run_eq_error_iff (f := ⟨_, _, e, b⟩).mp hrun
    have hheight := hg.height_le (fun k l hk => hcalls k l hk)
      (by change e.height ≤ (limit + 1).toNat; omega)
    rw [hstop.nestedTooDeep] at hheight
    have hpos := g.expr.height_pos
    omega
  tooDeep he limit h v b' hrun := by
    have hheight := height_le_of_ok he hrun
    have hpos := e.height_pos
    change e.height ≤ (limit + 1).toNat at hheight
    omega

/-- The index of a root counts as an operand. -/
example : (Expr.builtin .sqrt [.name "x"] (some (.unary .neg (.name "x")))).height = 3 ∧
    (Expr.builtin .sqrt [.name "x"] (some (.unary .neg (.name "x")))).eval
        { constants := .ofPairs [("x", .scalar ⟨2, 0, .none, 0⟩)], limit := 1 } {} =
      (.error (.eval (.nestedTooDeep 1)), {}) :=
  ⟨rfl, rfl⟩

end Expr

end UnitSheet
