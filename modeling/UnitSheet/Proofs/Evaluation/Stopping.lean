import UnitSheet.Proofs.Evaluation.Frame
import UnitSheet.Proofs.Value.Shape

namespace UnitSheet

open UnitSheet.Expr Relation UnitSheet.Computation

namespace Evaluation

variable {s : Scope} {b b' : Bindings} {x : String} {v : Value} {e : Stop} {q : Quantity}

theorem lift_eq_error {α : Type} {r : Except Stop α} (h : lift r b = (.error e, b')) :
    r = .error e ∧ b' = b := by
  obtain ⟨hr, rfl⟩ := Prod.mk.inj h
  exact ⟨hr, rfl⟩

theorem lookup_eq_error (h : lookup s x b = (.error e, b')) :
    s.get? b x = none ∧ e = .eval (.unknownName x) ∧ b' = b := by
  cases hx : s.get? b x with
  | some w =>
    rw [lookup_some hx] at h
    cases h
  | none =>
    rw [lookup_none hx] at h
    cases h
    exact ⟨rfl, rfl, rfl⟩

theorem assignable_eq_error (h : assignable s x b = (.error e, b')) :
    s.constants.contains x = true ∧ e = .eval (.assignToConstant x) ∧ b' = b := by
  cases hx : s.constants.contains x with
  | false =>
    rw [assignable_of_free hx] at h
    cases h
  | true =>
    rw [assignable_of_constant hx] at h
    cases h
    exact ⟨rfl, rfl, rfl⟩

theorem element_of_ne (h : v.shape ≠ .scalar) :
    element v b = (.error (.eval (.listElement v.shape)), b) := by
  cases v with
  | scalar q => exact absurd rfl h
  | _ => rfl

theorem element_eq_error (h : element v b = (.error e, b')) :
    v.shape ≠ .scalar ∧ e = .eval (.listElement v.shape) ∧ b' = b := by
  cases v with
  | scalar q => cases h
  | _ =>
    cases h
    exact ⟨by simp [Value.shape], rfl, rfl⟩

end Evaluation

namespace Frame

open Evaluation

/-- The operation of an evaluation fails when its operands have got their values. -/
inductive Stops : Frame → Stop → Bindings → Prop
  | nesting {s e b} : Stops ⟨0, s, e, b⟩ (.eval (.nestedTooDeep s.limit)) b
  | name {n s x b} (hx : s.get? b x = none) :
      Stops ⟨n + 1, s, .name x, b⟩ (.eval (.unknownName x)) b
  | binary {n s op l r b v b' w b'' e} (hl : evalWithin n s l b = (.ok v, b'))
      (hr : evalWithin n s r b' = (.ok w, b'')) (he : Value.binary op v w = .error e) :
      Stops ⟨n + 1, s, .binary op l r, b⟩ e b''
  | unary {n s op a b v b' e} (ha : evalWithin n s a b = (.ok v, b'))
      (he : Value.unary op v = .error e) : Stops ⟨n + 1, s, .unary op a, b⟩ e b'
  | builtin {n s k args special b vs b' w b'' e} (ha : args.mapM (evalWithin n s) b = (.ok vs, b'))
      (hs : special.mapM (evalWithin n s) b' = (.ok w, b'')) (he : k.apply vs w = .error e) :
      Stops ⟨n + 1, s, .builtin k args special, b⟩ e b''
  | callee {n s x args b} (hx : s.get? b x = none) :
      Stops ⟨n + 1, s, .call x args, b⟩ (.eval (.unknownName x)) b
  | arity {n s x args b k params body vs b'} (hx : s.get? b x = some (.function k params body))
      (ha : args.mapM (evalWithin n s) b = (.ok vs, b')) (hn : vs.length ≠ params.length) :
      Stops ⟨n + 1, s, .call x args, b⟩ (.eval (.argumentCount k params.length vs.length)) b'
  | factor {n s x args b v w b' e} (hx : s.get? b x = some v) (hv : v.IsData)
      (ha : args.mapM (evalWithin n s) b = (.ok [w], b'))
      (he : Value.arithmetic .mul v w = .error e) :
      Stops ⟨n + 1, s, .call x args, b⟩ e b'
  | notFunction {n s x args b v vs b'} (hx : s.get? b x = some v) (hv : v.IsData)
      (ha : args.mapM (evalWithin n s) b = (.ok vs, b')) (hn : vs.length ≠ 1) :
      Stops ⟨n + 1, s, .call x args, b⟩ (.eval (.notAFunction x)) b'
  | item {n s items before a b qs b' v b''} (hp : before ++ [a] <+: items)
      (hb : before.mapM (fun e => evalWithin n s e >>= element) b = (.ok qs, b'))
      (ha : evalWithin n s a b' = (.ok v, b'')) (hv : v.shape ≠ .scalar) :
      Stops ⟨n + 1, s, .list items, b⟩ (.eval (.listElement v.shape)) b''
  | constant {n s e x b} (ht : e.target? = some x) (hx : s.constants.contains x = true) :
      Stops ⟨n + 1, s, e, b⟩ (.eval (.assignToConstant x)) b

variable {f g : Frame} {e : Stop} {b : Bindings}

theorem Stops.run (h : Stops f e b) : f.run = (.error e, b) := by
  cases h with
  | nesting => rfl
  | name hx => exact lookup_none hx
  | binary hl hr he =>
    refine (bind_ok hl).trans ((bind_ok hr).trans ?_)
    rw [lift, he]
  | unary ha he =>
    refine (bind_ok ha).trans ?_
    rw [lift, he]
  | builtin ha hs he =>
    refine (bind_ok ha).trans ((bind_ok hs).trans ?_)
    rw [lift, he]
  | callee hx => exact bind_error (lookup_none hx)
  | arity hx ha hn =>
    refine (bind_ok (lookup_some hx)).trans ((bind_ok ha).trans ?_)
    dsimp only
    rw [if_neg hn]
    rfl
  | @factor n s x args b v w b' e hx hv ha he =>
    refine (bind_ok (lookup_some hx)).trans ((bind_ok ha).trans ?_)
    cases v with
    | function k params body => exact absurd rfl hv
    | _ =>
      dsimp only
      rw [lift, he]
  | @notFunction n s x args b v vs b' hx hv ha hn =>
    refine (bind_ok (lookup_some hx)).trans ((bind_ok ha).trans ?_)
    cases v with
    | function k params body => exact absurd rfl hv
    | _ =>
      dsimp only
      split
      · exact absurd rfl hn
      · rfl
  | item hp hb ha hv =>
    refine bind_error (mapM_eq_error_iff.mpr ⟨_, _, _, _, hp, hb, ?_⟩)
    exact (bind_ok ha).trans (element_of_ne hv)
  | @constant n s e x b ht hx =>
    cases e with
    | assign y e =>
      cases ht
      exact bind_error (assignable_of_constant hx)
    | define k params body =>
      cases ht
      exact bind_error (assignable_of_constant hx)
    | _ => cases ht

theorem Enters.run_error (h : Enters f g) (hg : g.run = (.error e, b)) : f.run = (.error e, b) := by
  cases h with
  | inl h =>
    cases h with
    | left => exact bind_error hg
    | right hl => exact (bind_ok hl).trans (bind_error hg)
    | operand => exact bind_error hg
    | argument hp hb => exact bind_error (mapM_eq_error_iff.mpr ⟨_, _, _, _, hp, hb, hg⟩)
    | special ha => exact (bind_ok ha).trans (bind_error (bind_error hg))
    | callArgument hx hp hb =>
      refine (bind_ok (lookup_some hx)).trans (bind_error ?_)
      exact mapM_eq_error_iff.mpr ⟨_, _, _, _, hp, hb, hg⟩
    | item hp hb => exact bind_error (mapM_eq_error_iff.mpr ⟨_, _, _, _, hp, hb, bind_error hg⟩)
    | value hx => exact (bind_ok (assignable_of_free hx)).trans (bind_error hg)
  | inr h =>
    cases h with
    | body hx ha hn =>
      refine (bind_ok (lookup_some hx)).trans ((bind_ok ha).trans ?_)
      dsimp only
      rw [if_pos hn]
      exact hg

theorem Reaches.run_error (h : Reaches f g) (hg : g.run = (.error e, b)) :
    f.run = (.error e, b) := by
  induction h using ReflTransGen.head_induction_on with
  | refl => exact hg
  | head he _ ih => exact he.run_error ih

section
variable {n : Nat} {s : Scope} {b₀ : Bindings}

def StopsInside (f : Frame) (e : Stop) (b : Bindings) : Prop :=
  ∃ g, Enters f g ∧ g.levels < f.levels ∧ g.run = (.error e, b)

theorem Enters.stopsInside {a c : Expr} {s' : Scope} {b' : Bindings}
    (he : Enters ⟨n + 1, s, a, b₀⟩ ⟨n, s', c, b'⟩) (h : evalWithin n s' c b' = (.error e, b)) :
    StopsInside ⟨n + 1, s, a, b₀⟩ e b :=
  ⟨_, he, Nat.lt_succ_self n, h⟩

theorem builtin_stops {k : Builtin} {args : List Expr} {special : Option Expr}
    (h : evalWithin (n + 1) s (.builtin k args special) b₀ = (.error e, b)) :
    Stops ⟨n + 1, s, .builtin k args special, b₀⟩ e b ∨
      StopsInside ⟨n + 1, s, .builtin k args special, b₀⟩ e b := by
  rcases bind_eq_error_iff.mp h with h | ⟨vs, b', ha, h⟩
  · obtain ⟨before, a, ws, c, hp, hb, h⟩ := mapM_eq_error_iff.mp h
    exact .inr (Enters.stopsInside (.inl (.argument hp hb)) h)
  · rcases bind_eq_error_iff.mp h with h | ⟨w, b'', hs, h⟩
    · cases special with
      | none => cases h
      | some a =>
        rcases bind_eq_error_iff.mp h with h | ⟨w, b'', -, h⟩
        · exact .inr (Enters.stopsInside (.inl (.special ha)) h)
        · cases h
    · obtain ⟨he, rfl⟩ := lift_eq_error h
      exact .inl (.builtin ha hs he)

theorem product_stops {x : String} {args : List Expr} {v : Value} {vs : List Value} {b' : Bindings}
    (hx : s.get? b₀ x = some v) (hv : v.IsData) (ha : args.mapM (evalWithin n s) b₀ = (.ok vs, b'))
    (h : (match vs with
      | [w] => lift (Value.arithmetic .mul v w)
      | _ => stop (.notAFunction x)) b' = (.error e, b)) : Stops ⟨n + 1, s, .call x args,
        b₀⟩ e b := by
  split at h
  · obtain ⟨he, rfl⟩ := lift_eq_error h
    exact .factor hx hv ha he
  · next hvs =>
    cases h
    apply Stops.notFunction hx hv ha
    intro hn
    obtain ⟨w, rfl⟩ := List.length_eq_one_iff.mp hn
    exact hvs w rfl

theorem call_stops {x : String} {args : List Expr}
    (hrun : evalWithin (n + 1) s (.call x args) b₀ = (.error e, b)) :
    Stops ⟨n + 1, s, .call x args, b₀⟩ e b ∨ StopsInside ⟨n + 1, s, .call x args, b₀⟩ e b := by
  rcases bind_eq_error_iff.mp hrun with h | ⟨callee, b', hx, h⟩
  · obtain ⟨hx, rfl, rfl⟩ := lookup_eq_error h
    exact .inl (.callee hx)
  · obtain ⟨hx, rfl⟩ := lookup_eq_ok hx
    rcases bind_eq_error_iff.mp h with h | ⟨vs, b'', ha, h⟩
    · obtain ⟨before, a, ws, c, hp, hb, h⟩ := mapM_eq_error_iff.mp h
      exact .inr (Enters.stopsInside (.inl (.callArgument hx hp hb)) h)
    · cases callee with
      | function k params body =>
        dsimp only at h
        split at h
        · next hn => exact .inr (Enters.stopsInside (.inr (.body hx ha hn)) h)
        · next hn =>
          cases h
          exact .inl (.arity hx ha hn)
      | scalar q => exact .inl (product_stops hx (Value.scalar_isData q) ha h)
      | list qs => exact .inl (product_stops hx (Value.list_isData qs) ha h)
      | boolean t => exact .inl (product_stops hx (Value.boolean_isData t) ha h)

end

theorem stops_or_inside (h : f.run = (.error e, b)) : Stops f e b ∨ StopsInside f e b := by
  obtain ⟨n, s, a, b₀⟩ := f
  cases n with
  | zero =>
    cases h
    exact .inl .nesting
  | succ n =>
    cases a with
    | literal l => cases h
    | name x =>
      obtain ⟨hx, rfl, rfl⟩ := lookup_eq_error h
      exact .inl (.name hx)
    | binary op l r =>
      rcases bind_eq_error_iff.mp h with h | ⟨v, b', hl, h⟩
      · exact .inr (Enters.stopsInside (.inl .left) h)
      · rcases bind_eq_error_iff.mp h with h | ⟨w, b'', hr, h⟩
        · exact .inr (Enters.stopsInside (.inl (.right hl)) h)
        · obtain ⟨he, rfl⟩ := lift_eq_error h
          exact .inl (.binary hl hr he)
    | unary op a =>
      rcases bind_eq_error_iff.mp h with h | ⟨v, b', ha, h⟩
      · exact .inr (Enters.stopsInside (.inl .operand) h)
      · obtain ⟨he, rfl⟩ := lift_eq_error h
        exact .inl (.unary ha he)
    | builtin k args special => exact builtin_stops h
    | call x args => exact call_stops h
    | list items =>
      rcases bind_eq_error_iff.mp h with h | ⟨qs, b', -, h⟩
      · obtain ⟨before, a, qs, c, hp, hb, h⟩ := mapM_eq_error_iff.mp h
        rcases bind_eq_error_iff.mp h with h | ⟨v, c', ha, h⟩
        · exact .inr (Enters.stopsInside (.inl (.item hp hb)) h)
        · obtain ⟨hv, rfl, rfl⟩ := element_eq_error h
          exact .inl (.item hp hb ha hv)
      · cases h
    | assign x a =>
      rcases bind_eq_error_iff.mp h with h | ⟨_, b', hx, h⟩
      · obtain ⟨hx, rfl, rfl⟩ := assignable_eq_error h
        exact .inl (.constant rfl hx)
      · obtain ⟨hx, rfl⟩ := assignable_eq_ok hx
        rcases bind_eq_error_iff.mp h with h | ⟨v, b'', -, h⟩
        · exact .inr (Enters.stopsInside (.inl (.value hx)) h)
        · cases h
    | define k params body =>
      rcases bind_eq_error_iff.mp h with h | ⟨_, b', hx, h⟩
      · obtain ⟨hx, rfl, rfl⟩ := assignable_eq_error h
        exact .inl (.constant rfl hx)
      · cases h

/-- An evaluation ends in an error exactly if the operation of an evaluation inside fails with
it. -/
theorem run_eq_error_iff : f.run = (.error e, b) ↔ ∃ g, Reaches f g ∧ Stops g e b := by
  constructor
  · intro h
    induction hn : f.levels using Nat.strongRecOn generalizing f with
    | ind n ih =>
      rcases stops_or_inside h with hstop | ⟨g, he, hlt, hg⟩
      · exact ⟨f, .refl, hstop⟩
      · obtain ⟨k, hk, hstop⟩ := ih g.levels (hn ▸ hlt) hg rfl
        exact ⟨k, .head he hk, hstop⟩
  · intro ⟨g, hg, hstop⟩
    exact hg.run_error hstop.run

end Frame

end UnitSheet
