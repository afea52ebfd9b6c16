import UnitSheet.Proofs.Expr.Progress

namespace UnitSheet.Parser

variable {α β : Type} {c c' : Context} {deeper deeper' : Level} {ts us vs tail : List Token}
variable {t : Token}
variable {bars bars' power k l : Nat} {bare : Bool} {P Q : Prop}
variable {r r' : Except Stop (α × List Token)}
variable {f f' : α × List Token → Except Stop (β × List Token)}

/-- No bar stands outside the delimiters that the tokens open, or outside the `depth` ones that are
open. -/
def barless : (depth : Nat) → List Token → Bool
  | _, [] => true
  | depth, t :: ts =>
    match t.kind with
    | .opening _ => barless (depth + 1) ts
    | .closing _ => depth = 0 || barless (depth - 1) ts
    | .bar => depth ≠ 0 && barless depth ts
    | _ => barless depth ts

/-- Whether a token ends an expression inside some open bars. -/
def ends (bars : Nat) : Token.Kind → Bool
  | .closing _ | .comma => true
  | .bar => bars ≠ 0
  | _ => false

def Ends (bars : Nat) (tail : List Token) :
    Prop := ∃ t rest, tail = t :: rest ∧ ends bars t.kind = true

/-- The tokens are read alike inside the one number of open bars and the other. -/
def Fits (bars bars' : Nat) (ts : List Token) : Prop := bars' = bars ∨ barless 0 ts = true

/-- What remains of some tokens behind the end of `k` delimiters. -/
structure Passes (k : Nat) (ts us : List Token) : Prop where
  length_le : us.length ≤ ts.length
  barless_of : ∀ d, barless (d + k) ts = true → barless d us = true

theorem Passes.refl (ts : List Token) : Passes 0 ts ts :=
  ⟨Nat.le_refl _, fun _ h => h⟩

theorem Passes.trans (h : Passes k ts us) (h' : Passes l us vs) : Passes (l + k) ts vs where
  length_le := Nat.le_trans h'.length_le h.length_le
  barless_of := fun d hd => h'.barless_of d (h.barless_of (d + l) (by rwa [Nat.add_assoc]))

/-- The reading goes the same way with `tail` behind the tokens. Where it comes to the end of the
tokens it sees the tail in place of the end token, which is the same to it if `P` holds. -/
def Extends (k : Nat) (P : Prop) (tail ts : List Token)
    (r r' : Except Stop (α × List Token)) : Prop :=
  ∀ a us, r = .ok (a, us) → Passes k ts us ∧ ((us = [] → P) → r' = .ok (a, us ++ tail))

/-- A second reader that fails at the end of the tokens keeps the first one from coming there. -/
theorem Extends.bind (h : Extends k P tail ts r r') (hP : ∀ a p, f (a, []) = .ok p → Q → P)
    (hf : ∀ a us, r = .ok (a, us) → Passes k ts us →
      Extends l Q tail us (f (a, us)) (f' (a, us ++ tail))) :
    Extends (l + k) Q tail ts (r >>= f) (r' >>= f') := by
  intro b vs hb
  obtain ⟨⟨a, us⟩, rfl, hb⟩ := exists_of_bind hb
  obtain ⟨hp, hr⟩ := h a us rfl
  obtain ⟨hq, hf'⟩ := hf a us rfl hp b vs hb
  refine ⟨hp.trans hq, fun hQ => ?_⟩
  have hend : us = [] → P := by
    rintro rfl
    exact hP a (b, vs) hb (hQ (List.eq_nil_of_length_eq_zero (Nat.le_zero.mp hq.length_le)))
  rw [hr hend]
  exact hf' hQ

theorem Extends.then (h : Extends k P tail ts r r')
    (hf : ∀ a us, r = .ok (a, us) → Passes k ts us →
      Extends l P tail us (f (a, us)) (f' (a, us ++ tail))) :
    Extends (l + k) P tail ts (r >>= f) (r' >>= f') :=
  h.bind (fun _ _ _ => id) hf

theorem Extends.mono (h : Extends k P tail ts r r') (hQ : Q → P) : Extends k Q tail ts r r' :=
  fun a us hr => ⟨(h a us hr).1, fun hend => (h a us hr).2 fun hus => hQ (hend hus)⟩

theorem extends_ok (a : α) : Extends 0 P tail us (.ok (a, us)) (.ok (a, us ++ tail)) := by
  intro a us h
  cases h
  exact ⟨.refl _, fun _ => rfl⟩

def isPlain : Token.Kind → Bool
  | .opening _ | .closing _ | .bar => false
  | _ => true

theorem barless_plain (h : isPlain t.kind = true) (d : Nat) :
    barless d (t :: ts) = barless d ts := by
  rw [barless]
  split <;> simp_all [isPlain]

theorem passes_plain (h : isPlain t.kind = true) : Passes 0 (t :: ts) ts :=
  ⟨Nat.le_succ _, fun d hd => (barless_plain h d).symm.trans hd⟩

theorem isPlain_of_sign {op : UnaryOp} (h : t.sign? = some op) : isPlain t.kind = true := by
  rw [Token.sign?] at h
  split at h <;> simp_all [isPlain]

theorem passes_closing {b : Bracket} (h : t.kind = .closing b) : Passes 1 (t :: ts) ts := by
  refine ⟨Nat.le_succ _, fun d hd => ?_⟩
  simpa [barless, h] using hd

theorem passes_bar (h : t.kind = .bar) : Passes 0 (t :: ts) ts := by
  refine ⟨Nat.le_succ _, fun d hd => ?_⟩
  rw [barless, h] at hd
  exact (Bool.and_eq_true _ _ ▸ hd).2

theorem isPlain_of_run (h : t.isDigitRun = true) : isPlain t.kind = true := by
  rw [Token.isDigitRun] at h
  simp_all [isPlain]

theorem passes_split {digit : Literal} {rest : Token} (hrun : t.isDigitRun = true)
    (h : split t = .ok (digit, rest)) : Passes 0 (t :: ts) (rest :: ts) := by
  have hrest : isPlain rest.kind = true := by rw [(splitDigit_eq_ok (splitDigit_of_split h)).2]; rfl
  refine ⟨Nat.le_refl _, fun d hd => ?_⟩
  rw [barless_plain hrest]
  exact (barless_plain (isPlain_of_run hrun) d).symm.trans hd

theorem Passes.opened {b : Bracket} (h : t.kind = .opening b) (hp : Passes 1 ts us) :
    Passes 0 (t :: ts) us := by
  refine ⟨Nat.le_succ_of_le hp.length_le, fun d hd => hp.barless_of d ?_⟩
  rwa [Nat.add_zero, barless, h] at hd

theorem Fits.pass (h : Fits bars bars' ts) (hp : Passes 0 ts us) : Fits bars bars' us :=
  h.imp_right (hp.barless_of 0)

theorem Fits.eq_of_bar (h : Fits bars bars' (t :: ts)) (ht : t.kind = .bar) : bars' = bars := by
  refine h.resolve_right fun hb => ?_
  simp [barless, ht] at hb

theorem Extends.behind (h : Passes k ts us) (he : Extends l P tail us r r') :
    Extends (l + k) P tail ts r r' :=
  fun a vs hr => ⟨h.trans (he a vs hr).1, (he a vs hr).2⟩

theorem Extends.opened {b : Bracket} (h : t.kind = .opening b) (he : Extends 1 P tail ts r r') :
    Extends 0 P tail (t :: ts) r r' :=
  fun a vs hr => ⟨(he a vs hr).1.opened h, (he a vs hr).2⟩

theorem extends_of_not_ok (h : ∀ p, r ≠ .ok p) : Extends k P tail ts r r' :=
  fun _ _ hr => absurd hr (h _)

theorem extends_error (stop : Stop) : Extends k P tail ts (.error stop) r' :=
  extends_of_not_ok fun _ h => by cases h

theorem Extends.map (h : Extends k P tail ts r r') (g : α → β) :
    Extends k P tail ts (r >>= fun p => .ok (g p.1, p.2)) (r' >>= fun p => .ok (g p.1, p.2)) := by
  intro b us hb
  obtain ⟨p, hr, hb⟩ := exists_of_bind hb
  cases hb
  obtain ⟨hp, hr'⟩ := h p.1 p.2 hr
  refine ⟨hp, fun hend => ?_⟩
  rw [hr' hend]
  rfl

theorem Extends.at_end {r'' : Except Stop (α × List Token)} (h : Extends k P tail [] r r')
    (hr : P → r'' = r') : Extends k P tail [] r r'' := by
  intro a us ha
  obtain ⟨hp, ha'⟩ := h a us ha
  refine ⟨hp, fun hend => ?_⟩
  rw [hr (hend (List.eq_nil_of_length_eq_zero (Nat.le_zero.mp hp.length_le)))]
  exact ha' hend

theorem extends_end {a : α} (h : P → r' = .ok (a, tail)) : Extends 0 P tail [] (.ok (a, [])) r' :=
  (extends_ok a).at_end h

theorem extends_factorials (e : Expr) (us : List Token) :
    Extends 0 (Ends bars tail) tail us (.ok (factorials e us))
      (.ok (factorials e (us ++ tail))) := by
  induction us generalizing e with
  | nil =>
    apply extends_end
    rintro ⟨t, rest, rfl, ht⟩
    have hkind : t.kind ≠ .factorial := by
      intro h
      simp [h, ends] at ht
    exact congrArg Except.ok (if_neg hkind)
  | cons t us ih =>
    rw [List.cons_append, factorials, factorials]
    split
    · next ht => exact (ih _).behind (passes_plain (by rw [ht]; rfl))
    · exact extends_ok e

theorem extends_spanSigns (ts : List Token) :
    Extends 0 False tail ts (.ok (spanSigns ts)) (.ok (spanSigns (ts ++ tail))) := by
  induction ts with
  | nil => exact extends_end False.elim
  | cons t ts ih =>
    rw [List.cons_append, spanSigns, spanSigns]
    split
    · next op hop =>
      exact (ih.map (op :: ·)).behind (passes_plain (isPlain_of_sign hop))
    · exact extends_ok []

theorem assignment_ok {target value e : Expr} (h : assignment c target value t = .ok e) :
    assignment c' target value t = .ok e := by
  cases target with
  | name x => exact h
  | call g args =>
    rw [assignment] at h ⊢
    split at h
    · split at h
      · next hnodup =>
        rw [if_pos hnodup]
        exact h
      · cases h
    · cases h
  | _ => cases h

theorem extends_split (hrun : t.isDigitRun = true) (g : Literal → α) :
    Extends 0 P tail (t :: ts) (split t >>= fun p => .ok (g p.1, p.2 :: ts))
      (split t >>= fun p => .ok (g p.1, p.2 :: (ts ++ tail))) := by
  intro a us h
  obtain ⟨⟨digit, rest⟩, hs, h⟩ := exists_of_bind h
  cases h
  rw [hs]
  exact ⟨passes_split hrun hs, fun _ => rfl⟩

structure Level.Extends (deeper deeper' : Level) : Prop where
  shortens : deeper.Shortens
  expression : ∀ {power bars bars' bare ts} tail, Fits bars bars' ts →
    Parser.Extends 0 (Ends bars' tail) tail ts (deeper.expression power bars bare ts)
      (deeper'.expression power bars' bare (ts ++ tail))
  exponent : ∀ {bars bars' ts} tail, Fits bars bars' ts →
    Parser.Extends 0 (Ends bars' tail) tail ts (deeper.exponent bars ts)
      (deeper'.exponent bars' (ts ++ tail))

theorem Ends.kind_ne {kind : Token.Kind} (h : Ends bars tail) (hkind : ends bars kind = false) :
    (current c tail).kind ≠ kind := by
  obtain ⟨t, rest, rfl, ht⟩ := h
  rintro rfl
  exact absurd (hkind.symm.trans ht) Bool.false_ne_true

section
variable (hc : c.done.kind = .done)
include hc

theorem expect_nil (kind : Token.Kind) (hkind : kind ≠ .done) (f : List Token → Except Stop β)
    (b : β) : (expect c kind [] >>= f) ≠ .ok b := by
  intro h
  obtain ⟨us, he, -⟩ := exists_of_bind h
  obtain ⟨t, -, ht⟩ := expect_eq_ok hc kind hkind he
  cases ht

theorem extends_expect (kind : Token.Kind) (hkind : kind ≠ .done)
    (hk : ∀ t ts, t.kind = kind → Passes k (t :: ts) ts) (a : α) :
    Extends k P tail us (expect c kind us >>= fun us => .ok (a, us))
      (expect c' kind (us ++ tail) >>= fun us => .ok (a, us)) := by
  intro b vs hb
  obtain ⟨ws, he, hb⟩ := exists_of_bind hb
  cases hb
  obtain ⟨t, ht, rfl⟩ := expect_eq_ok hc kind hkind he
  refine ⟨hk t vs ht, fun _ => ?_⟩
  have hexpect : expect c' kind (t :: (vs ++ tail)) = .ok (vs ++ tail) := if_pos ht
  rw [List.cons_append, hexpect]
  rfl

end

theorem operators_ends (h : Ends bars tail) (fuel : Nat) (left : Expr) :
    operators c deeper power bars bare fuel left tail = .ok (left, tail) := by
  obtain ⟨t, rest, rfl, ht⟩ := h
  cases fuel with
  | zero => rfl
  | succ fuel =>
    rw [operators]
    split
    · next hkind => simp [hkind, ends] at ht
    · next hkind => simp [hkind, ends] at ht
    · next hkind => simp [hkind, ends] at ht
    · have hstarts : t.kind.startsOperand bars = false := by
        cases hkind : t.kind <;> simp_all [ends, Token.Kind.startsOperand]
      rw [hstarts]
      rfl

section
variable (hd : deeper.Extends deeper')
include hd

theorem extends_moreArguments {fuel fuel' : Nat} (h : ts.length ≤ fuel) (h' : fuel ≤ fuel') :
    Extends 0 False tail ts (moreArguments deeper fuel ts)
      (moreArguments deeper' fuel' (ts ++ tail)) := by
  induction fuel generalizing fuel' ts with
  | zero =>
    obtain rfl : ts = [] := List.eq_nil_of_length_eq_zero (Nat.le_zero.mp h)
    exact extends_end False.elim
  | succ fuel ih =>
    cases ts with
    | nil => exact extends_end False.elim
    | cons t ts =>
      obtain ⟨fuel', rfl⟩ := Nat.exists_eq_add_one_of_ne_zero (Nat.ne_zero_of_lt h')
      rw [List.cons_append, moreArguments, moreArguments]
      split
      · next ht =>
        apply Extends.behind (k := 0) (passes_plain (by rw [ht]; rfl))
        apply ((hd.expression tail (.inl rfl)).mono False.elim).then
        intro e us hr _
        have hus := Nat.le_of_lt (hd.shortens.expression hr)
        apply (ih (Nat.le_trans hus (Nat.le_of_succ_le_succ h)) (Nat.le_of_succ_le_succ h')).then
        intro es vs _ _
        exact extends_ok (e :: es)
      · exact extends_ok []

theorem extends_operators {fuel fuel' : Nat} (h : ts.length ≤ fuel) (h' : fuel ≤ fuel')
    (hf : Fits bars bars' ts) (left : Expr) :
    Extends 0 (Ends bars' tail) tail ts (operators c deeper power bars bare fuel left ts)
      (operators c' deeper' power bars' bare fuel' left (ts ++ tail)) := by
  induction fuel generalizing fuel' left ts with
  | zero =>
    obtain rfl : ts = [] := List.eq_nil_of_length_eq_zero (Nat.le_zero.mp h)
    exact extends_end fun h => operators_ends h fuel' left
  | succ fuel ih =>
    cases ts with
    | nil => exact extends_end fun h => operators_ends h fuel' left
    | cons t ts =>
      obtain ⟨fuel', rfl⟩ := Nat.exists_eq_add_one_of_ne_zero (Nat.ne_zero_of_lt h')
      have hfuel := Nat.le_of_succ_le_succ h
      have hfuel' := Nat.le_of_succ_le_succ h'
      rw [List.cons_append, operators, operators]
      split
      · next ht =>
        have hp : Passes 0 (t :: ts) ts := passes_plain (by rw [ht]; rfl)
        split
        · exact extends_ok left
        · apply Extends.behind (k := 0) hp
          apply (hd.exponent tail (hf.pass hp)).then
          intro right us hr hus
          have hlength := hd.shortens.exponent hr
          exact ih (Nat.le_trans hlength hfuel) hfuel' ((hf.pass hp).pass hus) _
      · next op hne ht =>
        have hp : Passes 0 (t :: ts) ts := passes_plain (by rw [ht]; rfl)
        split
        · exact extends_ok left
        · apply Extends.behind (k := 0) hp
          apply (hd.expression tail (hf.pass hp)).then
          intro right us hr hus
          have hlength := Nat.le_of_lt (hd.shortens.expression hr)
          exact ih (Nat.le_trans hlength hfuel) hfuel' ((hf.pass hp).pass hus) _
      · next ht =>
        have hp : Passes 0 (t :: ts) ts := passes_plain (by rw [ht]; rfl)
        split
        · exact extends_ok left
        · apply Extends.behind (k := 0) hp
          apply (hd.expression tail (hf.pass hp)).then
          intro value us hr hus
          have hlength := Nat.le_of_lt (hd.shortens.expression hr)
          dsimp only
          cases he : assignment c left value t with
          | error stop => exact extends_error _
          | ok e =>
            rw [assignment_ok he]
            exact ih (Nat.le_trans hlength hfuel) hfuel' ((hf.pass hp).pass hus) e
      · have hstarts : t.kind.startsOperand bars' = t.kind.startsOperand bars := by
          by_cases ht : t.kind = .bar
          · rw [hf.eq_of_bar ht]
          · cases hkind : t.kind <;> simp_all [Token.Kind.startsOperand]
        rw [hstarts]
        split
        · apply (hd.expression tail hf).then
          intro right us hr hus
          have hlength := Nat.le_of_lt_succ (hd.shortens.expression hr)
          exact ih (Nat.le_trans hlength hfuel) hfuel' (hf.pass hus) _
        · exact extends_ok left

variable (hc : c.done.kind = .done)
include hc

theorem extends_enclosed (b : Bracket) :
    Extends 1 P tail ts (enclosed c deeper b ts) (enclosed c' deeper' b (ts ++ tail)) := by
  apply (hd.expression tail (.inl rfl)).bind
  · intro e p hp
    exact absurd hp (expect_nil hc (.closing b) (by simp) _ p)
  · intro e us _ _
    exact extends_expect hc (.closing b) (by simp) (fun _ _ => passes_closing) e

theorem extends_arguments (b : Bracket) :
    Extends 1 P tail ts (arguments c deeper b ts) (arguments c' deeper' b (ts ++ tail)) := by
  have hargs : Extends 1 P tail ts
      (do
        let p ← deeper.expression 0 0 false ts
        let q ← moreArguments deeper p.2.length p.2
        let us ← expect c (.closing b) q.2
        return (p.1 :: q.1, us))
      (do
        let p ← deeper'.expression 0 0 false (ts ++ tail)
        let q ← moreArguments deeper' p.2.length p.2
        let us ← expect c' (.closing b) q.2
        return (p.1 :: q.1, us)) := by
    apply (hd.expression tail (.inl rfl)).bind
    · intro e p hp
      exact absurd hp (expect_nil hc (.closing b) (by simp) _ p)
    · intro e us hr _
      apply (extends_moreArguments hd (Nat.le_refl us.length) (by simp)).bind
      · intro es p hp
        exact absurd hp (expect_nil hc (.closing b) (by simp) _ p)
      · intro es vs _ _
        exact extends_expect hc (.closing b) (by simp) (fun _ _ => passes_closing) (e :: es)
  cases ts with
  | nil =>
    rw [arguments, if_neg (current_nil hc (.closing b) (by simp))]
    apply extends_of_not_ok
    intro p hp
    obtain ⟨q, h, -⟩ := exists_of_bind hp
    exact absurd (hd.shortens.expression h) (Nat.not_lt_zero _)
  | cons t ts =>
    rw [List.cons_append, arguments, arguments, current_cons, current_cons, drop_cons, drop_cons]
    split
    · next ht => exact (extends_ok []).behind (passes_closing ht)
    · exact hargs

theorem extends_braced :
    Extends 0 P tail ts (braced c deeper ts) (braced c' deeper' (ts ++ tail)) := by
  cases ts with
  | nil =>
    rw [braced, if_neg (current_nil hc (.opening .brace) (by simp))]
    exact extends_error _
  | cons t ts =>
    rw [List.cons_append, braced, braced, current_cons, current_cons, drop_cons, drop_cons]
    split
    · next ht => exact (extends_enclosed hd hc .brace).opened ht
    · exact extends_error _

theorem extends_builtinArguments (g : Builtin) (name : Token) (hf : Fits bars bars' ts) :
    Extends 0 (Ends bars' tail) tail ts (builtinArguments c deeper g name bars ts)
      (builtinArguments c' deeper' g name bars' (ts ++ tail)) := by
  cases ts with
  | nil =>
    have hnone : parentheses? c [] = none := by rw [parentheses?, current, List.headD_nil, hc]
    have hterminator : (current c []).kind.isTerminator = true := by
      rw [current, List.headD_nil, hc]; rfl
    rw [builtinArguments, hnone]
    dsimp only
    rw [if_pos hterminator]
    split <;> exact extends_error _
  | cons t ts =>
    have hsame : parentheses? c' (t :: (ts ++ tail)) = parentheses? c (t :: ts) := rfl
    rw [List.cons_append, builtinArguments, builtinArguments, hsame, current_cons, current_cons,
      drop_cons, drop_cons]
    split
    · next b hb =>
      apply ((extends_arguments hd hc b).opened (kind_of_parentheses hb)).then
      intro args us _ _
      dsimp only
      split
      · exact extends_ok args
      · exact extends_error _
    · split
      · exact extends_error _
      · split
        · exact extends_error _
        · exact (hd.expression tail hf).then fun e us _ _ => extends_ok [e]

theorem extends_powerSuffix (hf : Fits bars bars' ts) :
    Extends 0 (Ends bars' tail) tail ts (powerSuffix c deeper bars ts)
      (powerSuffix c' deeper' bars' (ts ++ tail)) := by
  cases ts with
  | nil =>
    rw [powerSuffix, if_neg (current_nil hc (.operator (.arithmetic .pow)) (by simp))]
    exact extends_end fun h => if_neg (h.kind_ne rfl)
  | cons t ts =>
    rw [List.cons_append, powerSuffix, powerSuffix, current_cons, current_cons, drop_cons,
      drop_cons]
    split
    · next ht =>
      have hp : Passes 0 (t :: ts) ts := passes_plain (by rw [ht]; rfl)
      exact ((hd.exponent tail (hf.pass hp)).then fun e us _ _ => extends_ok (some e)).behind hp
    · exact extends_ok none

theorem extends_builtinCall (g : Builtin) (special : Option Expr) (name : Token)
    (hf : Fits bars bars' ts) :
    Extends 0 (Ends bars' tail) tail ts (builtinCall c deeper g special name bars ts)
      (builtinCall c' deeper' g special name bars' (ts ++ tail)) := by
  apply (extends_powerSuffix hd hc hf).then
  intro exponent us _ hus
  apply (extends_builtinArguments hd hc g name (hf.pass hus)).then
  intro args vs _ _
  exact extends_ok _

theorem extends_logBase :
    Extends 0 P tail ts (logBase c deeper ts) (logBase c' deeper' (ts ++ tail)) := by
  cases ts with
  | nil =>
    rw [logBase, current, List.headD_nil, hc]
    exact extends_error _
  | cons t ts =>
    rw [List.cons_append, logBase, logBase, current_cons, current_cons, drop_cons, drop_cons]
    dsimp only
    split
    · next ht => exact (extends_enclosed hd hc .brace).opened ht
    · next ht =>
      split
      · next hrun => exact extends_split hrun Expr.literal
      · exact (extends_ok _).behind (passes_plain (by rw [ht]; rfl))
    · exact extends_error _

theorem extends_logarithm (name : Token) (hf : Fits bars bars' ts) :
    Extends 0 (Ends bars' tail) tail ts (logarithm c deeper name bars ts)
      (logarithm c' deeper' name bars' (ts ++ tail)) := by
  cases ts with
  | nil =>
    rw [logarithm, if_neg (current_nil hc .subscript (by simp))]
    exact (extends_builtinCall hd hc .log none name hf).at_end fun h => if_neg (h.kind_ne rfl)
  | cons t ts =>
    rw [List.cons_append, logarithm, logarithm, current_cons, current_cons, drop_cons, drop_cons]
    split
    · next ht =>
      have hp : Passes 0 (t :: ts) ts := passes_plain (by rw [ht]; rfl)
      apply Extends.behind (k := 0) hp
      apply (extends_logBase hd hc).then
      intro base us _ hus
      exact extends_builtinCall hd hc .log (some base) name ((hf.pass hp).pass hus)
    · exact extends_builtinCall hd hc .log none name hf

theorem extends_rootIndex :
    Extends 0 (Ends bars' tail) tail ts (rootIndex c deeper ts)
      (rootIndex c' deeper' (ts ++ tail)) := by
  have hindex (b : Bracket) (ts : List Token) : Extends 1 (Ends bars' tail) tail ts
      (enclosed c deeper b ts >>= fun p => .ok (some p.1, p.2))
      (enclosed c' deeper' b (ts ++ tail) >>= fun p => .ok (some p.1, p.2)) :=
    (extends_enclosed hd hc b).then fun e us _ _ => extends_ok (some e)
  cases ts with
  | nil =>
    have hnone : rootIndex c deeper [] = .ok (none, []) := by
      rw [rootIndex, current, List.headD_nil, hc]
    rw [hnone]
    apply extends_end
    intro h
    rw [rootIndex]
    split
    · next ht => exact absurd ht (h.kind_ne rfl)
    · next ht => exact absurd ht (h.kind_ne rfl)
    · rfl
  | cons t ts =>
    rw [List.cons_append, rootIndex, rootIndex, current_cons, current_cons, drop_cons, drop_cons]
    split
    · next ht => exact (hindex .square ts).opened ht
    · next ht => exact (hindex .tallSquare ts).opened ht
    · exact extends_ok none

theorem extends_root : Extends 0 P tail ts (root c deeper ts) (root c' deeper' (ts ++ tail)) := by
  have hindex : Extends 0 (Ends 0 tail) tail ts (rootIndex c deeper ts)
      (rootIndex c' deeper' (ts ++ tail)) :=
    extends_rootIndex hd hc
  apply hindex.bind
  · intro index p hp
    have hnil : braced c deeper [] = fail c (.expectedBrace (current c []).text) (current c []) :=
      if_neg (current_nil hc (.opening .brace) (by simp))
    dsimp only at hp
    rw [hnil] at hp
    cases hp
  · intro index us _ _
    apply (extends_braced hd hc).then
    intro e vs _ _
    exact extends_ok _

theorem extends_fraction :
    Extends 0 P tail ts (fraction c deeper ts) (fraction c' deeper' (ts ++ tail)) := by
  apply (extends_braced hd hc).then
  intro numerator us _ _
  apply (extends_braced hd hc).then
  intro denominator vs _ _
  exact extends_ok _

theorem extends_named (t : Token) :
    Extends 0 (Ends bars' tail) tail ts (named c deeper t ts)
      (named c' deeper' t (ts ++ tail)) := by
  cases ts with
  | nil =>
    rw [named, if_neg (current_nil hc (.opening .paren) (by simp))]
    exact extends_end fun h => if_neg (h.kind_ne rfl)
  | cons u us =>
    rw [List.cons_append, named, named, current_cons, current_cons, drop_cons, drop_cons]
    dsimp only
    split
    · next hu =>
      exact ((extends_arguments hd hc .paren).opened hu).then fun args vs _ _ => extends_ok _
    · exact extends_ok _

theorem extends_barred :
    Extends 0 P tail ts (barred c deeper bars ts) (barred c' deeper' bars (ts ++ tail)) := by
  apply (hd.expression tail (.inl rfl)).bind
  · intro e p hp
    exact absurd hp (expect_nil hc .bar (by simp) _ p)
  · intro e us _ _
    exact extends_expect hc .bar (by simp) (fun _ _ => passes_bar) (absolute e)

theorem extends_atom (hf : Fits bars bars' ts) :
    Extends 0 (Ends bars' tail) tail ts (atom c deeper bars ts)
      (atom c' deeper' bars' (ts ++ tail)) := by
  cases ts with
  | nil => exact extends_error _
  | cons t ts =>
    have hplain (h : isPlain t.kind = true) : Fits bars bars' ts := hf.pass (passes_plain h)
    rw [List.cons_append, atom, atom]
    split
    · next h => exact (extends_ok _).behind (passes_plain (by rw [h]; rfl))
    · next h => exact (extends_named hd hc t).behind (passes_plain (by rw [h]; rfl))
    · next h =>
      exact ((extends_arguments hd hc .square).opened h).then fun items us _ _ => extends_ok _
    · next h =>
      exact ((extends_arguments hd hc .tallSquare).opened h).then fun items us _ _ => extends_ok _
    · next h => exact ((extends_enclosed hd hc .tallBar).opened h).then fun e us _ _ => extends_ok _
    · next h => exact (extends_enclosed hd hc _).opened h
    · next h =>
      rw [hf.eq_of_bar h]
      exact (extends_barred hd hc).behind (passes_bar h)
    · next h => exact (extends_fraction hd hc).behind (passes_plain (by rw [h]; rfl))
    · next h => exact (extends_root hd hc).behind (passes_plain (by rw [h]; rfl))
    · next h =>
      have h : isPlain t.kind = true := by rw [h]; rfl
      exact (extends_logarithm hd hc t (hplain h)).behind (passes_plain h)
    · next h =>
      have h : isPlain t.kind = true := by rw [h]; rfl
      exact (extends_builtinCall hd hc _ none t (hplain h)).behind (passes_plain h)
    · exact extends_error _

theorem extends_primary (hf : Fits bars bars' ts) :
    Extends 0 (Ends bars' tail) tail ts (primary c deeper bars ts)
      (primary c' deeper' bars' (ts ++ tail)) := by
  apply (extends_atom hd hc hf).then
  intro e us _ _
  exact extends_factorials e us

theorem extends_signed (hf : Fits bars bars' ts) :
    Extends 0 (Ends bars' tail) tail ts (signed c deeper bars ts)
      (signed c' deeper' bars' (ts ++ tail)) := by
  cases ts with
  | nil =>
    rw [signed, current, List.headD_nil, Token.sign?, hc]
    exact extends_error _
  | cons t ts =>
    rw [List.cons_append, signed, signed, current_cons, current_cons, drop_cons, drop_cons]
    split
    · next op hop =>
      have hp : Passes 0 (t :: ts) ts := passes_plain (isPlain_of_sign hop)
      exact ((hd.expression tail (hf.pass hp)).then fun e us _ _ =>
        extends_ok (Expr.unary op e)).behind hp
    · exact extends_primary hd hc hf

theorem extends_exponentOperand (hf : Fits bars bars' ts) :
    Extends 0 (Ends bars' tail) tail ts (exponentOperand c deeper bars ts)
      (exponentOperand c' deeper' bars' (ts ++ tail)) := by
  have hsigns : Extends 0 False tail ts (.ok (spanSigns ts)) (.ok (spanSigns (ts ++ tail))) :=
    extends_spanSigns ts
  obtain ⟨hus, hspan⟩ := hsigns _ _ rfl
  rw [exponentOperand, exponentOperand]
  generalize spanSigns ts = p at hus hspan
  obtain ⟨signs, us⟩ := p
  cases us with
  | nil =>
    have hrun : (current c []).isDigitRun = false := by simp [current, Token.isDigitRun, hc]
    dsimp only
    rw [hrun]
    exact extends_error _
  | cons t us =>
    rw [Except.ok.inj (hspan (by simp))]
    dsimp only [List.cons_append]
    rw [current_cons, current_cons, drop_cons, drop_cons]
    apply Extends.behind (k := 0) hus
    split
    · next hrun => exact extends_split hrun fun digit => signs.foldr Expr.unary (.literal digit)
    · exact (extends_primary hd hc (hf.pass hus)).map (signs.foldr Expr.unary)

theorem extends_exponentAt (hf : Fits bars bars' ts) :
    Extends 0 (Ends bars' tail) tail ts (exponentAt c deeper bars ts)
      (exponentAt c' deeper' bars' (ts ++ tail)) := by
  apply (extends_exponentOperand hd hc hf).then
  intro base us _ hus
  dsimp only
  cases us with
  | nil =>
    rw [if_neg (current_nil hc (.operator (.arithmetic .pow)) (by simp))]
    exact extends_end fun h => if_neg (h.kind_ne rfl)
  | cons t us =>
    rw [List.cons_append, current_cons, current_cons, drop_cons, drop_cons]
    split
    · next ht =>
      have hp : Passes 0 (t :: us) us := passes_plain (by rw [ht]; rfl)
      exact ((hd.exponent tail ((hf.pass hus).pass hp)).then fun e vs _ _ =>
        extends_ok (base.pow e)).behind hp
    · exact extends_ok base

theorem extends_expressionAt (hf : Fits bars bars' ts) :
    Extends 0 (Ends bars' tail) tail ts (expressionAt c deeper power bars bare ts)
      (expressionAt c' deeper' power bars' bare (ts ++ tail)) := by
  apply (extends_signed hd hc hf).then
  intro left us _ hus
  exact extends_operators hd (Nat.le_refl _) (by simp) (hf.pass hus) left

end

theorem level_extends (hc : c.done.kind = .done) {m n : Nat} (h : m ≤ n) :
    (level c m).Extends (level c' n) := by
  induction m generalizing n with
  | zero => exact ⟨level_shortens hc 0, fun _ _ => extends_error _, fun _ _ => extends_error _⟩
  | succ m ih =>
    obtain ⟨n, rfl⟩ := Nat.exists_eq_add_one_of_ne_zero (Nat.ne_zero_of_lt h)
    have hd := ih (Nat.le_of_succ_le_succ h)
    exact ⟨level_shortens hc (m + 1), fun _ => extends_expressionAt hd hc,
      fun _ => extends_exponentAt hd hc⟩

end UnitSheet.Parser
