import UnitSheet.Proofs.Evaluation.Agreement

namespace UnitSheet

open UnitSheet.Expr UnitSheet.Computation

variable {a : Access} {b b' : Bindings} {s : Scope} {e : Expr} {x : String} {v : Value}

/-- The variables after an expression that assigns nowhere but at its root. -/
def Expr.stored (e : Expr) (r : Except Stop Value) (b : Bindings) : Bindings :=
  match e.target?, r with
  | some x, .ok v => b.insert x v
  | _, _ => b

theorem Expr.stored_error (e : Expr) (f : Stop) (b : Bindings) : e.stored (.error f) b = b := by
  cases h : e.target? <;> simp only [stored, h]

theorem Expr.stored_of_target_none (h : e.target? = none) (r : Except Stop Value) (b : Bindings) :
    e.stored r b = b := by
  simp only [stored, h]

theorem Expr.stored_get?_ok (h : e.target? = some x) (v : Value) (b : Bindings) :
    (e.stored (.ok v) b).get? x = some v := by
  simp only [stored, h, Bindings.get?_insert, if_pos]

theorem Expr.stored_get?_of_ne (h : e.target? ≠ some x) (r : Except Stop Value) (b : Bindings) :
    (e.stored r b).get? x = b.get? x := by
  cases r with
  | error f => rw [stored_error]
  | ok v =>
    cases ht : e.target? with
    | none => rw [stored_of_target_none ht]
    | some y =>
      have hne : x ≠ y := fun hxy => h (hxy ▸ ht)
      simp only [stored, ht, Bindings.get?_insert, if_neg hne]

theorem evalWithin_of_readOnly (n : Nat) (ha : ∀ x, ¬ a.writes x) (hs : s.Admits a e)
    (hl : ∀ x, s.locals.get? x = none) (hb : Agree a s.constants b b') :
    ∃ r, evalWithin n s e b = (r, b) ∧ evalWithin n s e b' = (r, b') ∧ ∀ v, r = .ok v →
      v.KeepsTo a := by
  have hlocals : ∀ x v, s.locals.get? x = some v → v.KeepsTo a := by
    intro x v hv
    rw [hl x] at hv
    cases hv
  obtain ⟨r, ws, hrun, hrun', hws, hr⟩ := uniform_evalWithin n hs hlocals b b' hb
  cases ws with
  | nil => exact ⟨r, hrun, hrun', hr⟩
  | cons w ws => exact (ha _ (hws w List.mem_cons_self).1).elim

theorem Scope.admits_of_assigns_none (he : ∀ x, ¬ e.Assigns x)
    (hreads : ∀ x, Free x e → a.reads x) : s.Admits a e where
  reads x hx _ := hreads x hx
  writes x hx := (he x hx).elim
  define f _ _ hd := (he f ⟨_, hd, rfl⟩).elim

theorem evalWithin_assign_constant {n : Nat} {value : Expr} (hc : s.constants.contains x = true) :
    evalWithin (n + 1) s (.assign x value) b = (.error (.eval (.assignToConstant x)), b) :=
  bind_error (Evaluation.assignable_of_constant hc)

theorem evalWithin_assign {n : Nat} {value : Expr} {r : Except Stop Value}
    (hc : s.constants.contains x = false) (h : evalWithin n s value b = (r, b)) :
    evalWithin (n + 1) s (.assign x value) b = (r, (Expr.assign x value).stored r b) := by
  refine (bind_ok (Evaluation.assignable_of_free hc)).trans ?_
  cases r with
  | ok v =>
    refine (bind_ok h).trans ?_
    rfl
  | error e => exact bind_error h

theorem evalWithin_define_constant {n : Nat} {params : List String} {body : Expr}
    (hc : s.constants.contains x = true) :
    evalWithin (n + 1) s (.define x params body) b = (.error (.eval (.assignToConstant x)), b) :=
  bind_error (Evaluation.assignable_of_constant hc)

theorem evalWithin_define {n : Nat} {params : List String} {body : Expr}
    (hc : s.constants.contains x = false) :
    evalWithin (n + 1) s (.define x params body) b =
      (.ok (.function x params body), b.insert x (.function x params body)) := by
  refine (bind_ok (Evaluation.assignable_of_free hc)).trans ?_
  rfl

/-- An expression that assigns nowhere but at its root depends on nothing but the names that it may
read. -/
theorem evalWithin_root (n : Nat) (ha : ∀ x, ¬ a.writes x) (hl : ∀ x, s.locals.get? x = none)
    (hroot : ∀ x, ¬ e.AssignsBelow x) (hreads : ∀ x, Free x e → a.reads x)
    (hb : Agree a s.constants b b') :
    ∃ r, evalWithin n s e b = (r, e.stored r b) ∧ evalWithin n s e b' = (r, e.stored r b') ∧
      ∀ v, r = .ok v → v.KeepsTo a := by
  cases n with
  | zero =>
    refine ⟨.error (.eval (.nestedTooDeep s.limit)), ?_, ?_, fun v hv => by cases hv⟩
    · rw [Expr.stored_error]
      rfl
    · rw [Expr.stored_error]
      rfl
  | succ n =>
    cases ht : e.target? with
    | none =>
      have hnone : ∀ x, ¬ e.Assigns x := fun x hx => by
        rcases Expr.assigns_iff.mp hx with hx | hx
        · rw [ht] at hx
          cases hx
        · exact hroot x hx
      simp only [Expr.stored_of_target_none ht]
      exact evalWithin_of_readOnly (n + 1) ha (Scope.admits_of_assigns_none hnone hreads) hl hb
    | some x =>
      cases e with
      | assign y value =>
        have hvalue : ∀ x, ¬ value.Assigns x := fun x hx => hroot x ⟨value, by simp [children], hx⟩
        have hfree : ∀ x, Free x value → a.reads x := fun x hx =>
          hreads x (.child (by simp [children]) (by simp [binders]) hx)
        obtain ⟨r, hrun, hrun', hr⟩ :=
          evalWithin_of_readOnly n ha (Scope.admits_of_assigns_none hvalue hfree) hl hb
        cases hc : s.constants.contains y with
        | true =>
          refine ⟨.error (.eval (.assignToConstant y)), ?_, ?_, fun v hv => by cases hv⟩
          · rw [evalWithin_assign_constant hc, Expr.stored_error]
          · rw [evalWithin_assign_constant hc, Expr.stored_error]
        | false => exact ⟨r, evalWithin_assign hc hrun, evalWithin_assign hc hrun', hr⟩
      | define f params body =>
        cases hc : s.constants.contains f with
        | true =>
          refine ⟨.error (.eval (.assignToConstant f)), ?_, ?_, fun v hv => by cases hv⟩
          · rw [evalWithin_define_constant hc, Expr.stored_error]
          · rw [evalWithin_define_constant hc, Expr.stored_error]
        | false =>
          refine ⟨_, evalWithin_define hc, evalWithin_define hc, fun v hv => ?_⟩
          cases hv
          have hbody : ∀ x, ¬ body.Assigns x := fun x hx => hroot x ⟨body, by simp [children], hx⟩
          exact {
            reads := fun x hx hp => hreads x (.child (by simp [children]) hp hx)
            writes := fun x hx => (hbody x hx).elim
            definesNone := fun g ps c hd => hbody g ⟨_, hd, rfl⟩ }
      | _ => cases ht

end UnitSheet
