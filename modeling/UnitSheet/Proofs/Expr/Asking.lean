import UnitSheet.Proofs.Expr.Stage

namespace UnitSheet.Parser

/-- What the deeper readers are asked to read. -/
inductive Question
  | expression (power bars : Nat) (bare : Bool) (ts : List Token)
  | exponent (bars : Nat) (ts : List Token)

def Question.tokens : Question → List Token
  | expression _ _ _ ts | exponent _ ts => ts

def Question.stage : Question → Token.Stage
  | expression _ _ _ _ => .plain
  | exponent _ _ => .power

variable {α β : Type} {I K : Token.Stage → List Token → Prop} {V : Token → Prop} {E : Stop → Prop}
variable {Q : α → Prop}
variable {R : β → Prop} {F F' : Level → Except Stop α} {G : α → Level → Except Stop β} {c : Context}
variable {ts : List Token} {t name : Token} {stage : Token.Stage} {bars power : Nat} {bare : Bool}

def Level.answer (level : Level) : Question → Except Stop (Expr × List Token)
  | .expression power bars bare ts => level.expression power bars bare ts
  | .exponent bars ts => level.exponent bars ts

/-- The readers over some deeper ones. -/
def above (c : Context) (deeper : Level) : Level where
  expression := expressionAt c deeper
  exponent := exponentAt c deeper

theorem level_succ (n : Nat) : level c (n + 1) = above c (level c n) :=
  rfl

/-- A computation that does nothing with the deeper readers but ask them: it gives something with
the property `Q`, stops for a reason in `E`, or asks about tokens with the property `I` and goes on
if the remaining ones have it. -/
inductive Asking (I : Token.Stage → List Token → Prop) (E : Stop → Prop) (Q : α → Prop) :
    (Level → Except Stop α) → Prop
  | give {a : α} (h : Q a) : Asking I E Q fun _ => .ok a
  | stop {e : Stop} (h : E e) : Asking I E Q fun _ => .error e
  | ask {q : Question} {f : Expr × List Token → Level → Except Stop α} (hq : I q.stage q.tokens)
      (h : ∀ p, I .plain p.2 → Asking I E Q (f p)) : Asking I E Q fun deeper => deeper.answer q >>=
        fun p => f p deeper

theorem Asking.bind (h : Asking I E Q F) (hG : ∀ a, Q a → Asking I E R (G a)) :
    Asking I E R fun deeper => F deeper >>= fun a => G a deeper := by
  induction h with
  | give h => exact hG _ h
  | stop h => exact .stop h
  | ask hq _ ih =>
    simp only [bind_assoc]
    exact .ask hq ih

theorem Asking.mono {P : α → Prop} (h : Asking I E Q F) (hP : ∀ a, Q a → P a) : Asking I E P F := by
  induction h with
  | give h => exact .give (hP _ h)
  | stop h => exact .stop h
  | ask hq _ ih => exact .ask hq ih

theorem Asking.ite {p : Prop} [Decidable p] (h : p → Asking I E Q F) (h' : ¬ p → Asking I E Q F') :
    Asking I E Q fun deeper => if p then F deeper else F' deeper := by
  by_cases hp : p
  · simp only [if_pos hp]
    exact h hp
  · simp only [if_neg hp]
    exact h' hp

theorem asking_expression (h : I .plain ts) :
    Asking I E (fun p => I .plain p.2) fun deeper => deeper.expression power bars bare ts := by
  have hask : Asking I E (fun p => I .plain p.2) fun deeper =>
      deeper.answer (.expression power bars bare ts) >>= fun p => pure p :=
        .ask h fun p hp => .give hp
  simp only [bind_pure] at hask
  exact hask

/-- A property of the remaining tokens, by the stage that the tokens before have led to, that
dropping the first token and taking a digit off it keep. A stage without an effect on the first
token is as good as the plain one. -/
structure Closed (I : Token.Stage → List Token → Prop) : Prop where
  next : ∀ stage t ts, I stage (t :: ts) → (stage.cuts && t.isDigitRun) = false →
    I (stage.next t.kind) ts
  rest : ∀ stage t ts digit rest, I stage (t :: ts) → stage.cuts = true → t.isDigitRun = true →
    t.splitDigit = .ok (digit, rest) → I .plain (rest :: ts)
  plain : ∀ stage ts, I stage ts → (∀ t ∈ ts.head?, stage.Passes t) → I .plain ts

theorem Closed.tail (hI : Closed I) (h : I .plain (t :: ts))
    (hstage : Token.Stage.plain.next t.kind = stage) : I stage ts :=
  hstage ▸ hI.next .plain t ts h rfl

theorem Closed.drop (hI : Closed I) (h : I .plain ts)
    (hstage : Token.Stage.plain.next (current c ts).kind = .plain) : I .plain (ts.drop 1) := by
  cases ts with
  | nil => exact h
  | cons t ts => exact hI.tail h hstage

theorem Closed.drop_of_kind (hI : Closed I) (h : I .plain ts) {kind : Token.Kind}
    (ht : (current c ts).kind = kind)
    (hstage : Token.Stage.plain.next kind = .plain) : I .plain (ts.drop 1) :=
  hI.drop h (ht ▸ hstage)

/-- The reasons `E` to stop contain those of the readers themselves: a cause but the depth of
nesting, at a token with the property `V`, and a run of digits that breaks down. The tokens that
come into view have that property. -/
structure Blames (c : Context) (I : Token.Stage → List Token → Prop) (V : Token → Prop)
    (E : Stop → Prop) : Prop where
  own : ∀ cause t, (∀ limit, cause ≠ .nestedTooDeep limit) → V t →
    E (.failure (.parse ⟨cause, t.pos, if c.source.isEmpty then none else some c.source⟩))
  fault : ∀ stage t ts f, I stage (t :: ts) → stage.cuts = true → t.isDigitRun = true →
    t.splitDigit = .error f → E (.fault f)
  done : V c.done
  seen : ∀ stage t ts, I stage (t :: ts) → V t

theorem Blames.current (hE : Blames c I V E) (h : I stage ts) : V (current c ts) := by
  cases ts with
  | nil => exact hE.done
  | cons t ts => exact hE.seen stage t ts h

theorem Blames.mono (hE : Blames c K V E) (h : ∀ stage ts, I stage ts → K stage ts) :
    Blames c I V E where
  own := hE.own
  fault := fun stage t ts f ht => hE.fault stage t ts f (h _ _ ht)
  done := hE.done
  seen := fun stage t ts ht => hE.seen stage t ts (h _ _ ht)

theorem asking_fail (hE : Blames c K V E) {cause : ParseError.Cause} (ht : V t)
    (hcause : ∀ limit, cause ≠ .nestedTooDeep limit) : Asking I E Q fun _ => fail c cause t :=
  .stop (hE.own cause t hcause ht)

theorem asking_split (hK : Closed K) (hE : Blames c K V E) (h : K stage (t :: ts))
    (hcuts : stage.cuts = true)
    (hrun : t.isDigitRun = true) : Asking I E (fun p => K .plain (p.2 :: ts)) fun _ => split t := by
  rw [split]
  cases hs : t.splitDigit with
  | error f => exact .stop (hE.fault stage t ts f h hcuts hrun hs)
  | ok p => exact .give (hK.rest stage t ts p.1 p.2 h hcuts hrun hs)

section
variable (hI : Closed I) (hE : Blames c I V E) (hc : c.done.kind = .done)
include hI

theorem closed_factorials (e : Expr) (h : I .plain ts) : I .plain (factorials e ts).2 := by
  induction ts generalizing e with
  | nil => exact h
  | cons t ts ih =>
    rw [factorials]
    split
    · next ht => exact ih _ (hI.tail h (by rw [ht]; rfl))
    · exact h

theorem closed_spanSigns (h : I .power ts) : I .power (spanSigns ts).2 := by
  induction ts with
  | nil => exact h
  | cons t ts ih =>
    rw [spanSigns]
    split
    · next hsign =>
      have hts := hI.next .power t ts h (by rw [Token.isDigitRun_sign hsign]; rfl)
      rw [Token.next_sign hsign, if_pos rfl] at hts
      exact ih hts
    · exact h

include hE

theorem asking_expect (kind : Token.Kind) (h : I .plain ts)
    (hstage : Token.Stage.plain.next kind = .plain) :
    Asking I E (I .plain) fun _ => expect c kind ts :=
  .ite (fun ht => .give (hI.drop_of_kind h ht hstage)) fun _ =>
    asking_fail hE (hE.current h) (by simp)

theorem asking_enclosed (b : Bracket) (h : I .plain ts) :
    Asking I E (fun p => I .plain p.2) fun deeper => enclosed c deeper b ts := by
  apply (asking_expression h).bind
  intro p hp
  exact (asking_expect hI hE (.closing b) hp rfl).bind fun us hus => .give hus

theorem asking_braced (h : I .plain ts) :
    Asking I E (fun p => I .plain p.2) fun deeper => braced c deeper ts :=
  .ite (fun ht => asking_enclosed hI hE .brace (hI.drop_of_kind h ht rfl)) fun _ =>
    asking_fail hE (hE.current h) (by simp)

omit hE in
theorem asking_moreArguments (fuel : Nat) (h : I .plain ts) :
    Asking I E (fun p => I .plain p.2) fun deeper => moreArguments deeper fuel ts := by
  induction fuel generalizing ts with
  | zero => exact .give h
  | succ fuel ih =>
    cases ts with
    | nil => exact .give h
    | cons t ts =>
      refine .ite (fun ht => ?_) fun _ => .give h
      apply (asking_expression (hI.tail h (by rw [ht]; rfl))).bind
      intro p hp
      exact (ih hp).bind fun q hq => .give hq

theorem asking_arguments (b : Bracket) (h : I .plain ts) :
    Asking I E (fun p => I .plain p.2) fun deeper => arguments c deeper b ts := by
  refine .ite (fun ht => .give (hI.drop_of_kind h ht rfl)) fun _ => ?_
  apply (asking_expression h).bind
  intro p hp
  apply (asking_moreArguments hI p.2.length hp).bind
  intro q hq
  exact (asking_expect hI hE (.closing b) hq rfl).bind fun us hus => .give hus

theorem asking_builtinArguments (k : Builtin) (hname : V name) (h : I .plain ts) :
    Asking I E (fun p => I .plain p.2) fun deeper => builtinArguments c deeper k name bars ts := by
  simp only [builtinArguments]
  split
  · next b hb =>
    apply (asking_arguments hI hE _ (hI.drop_of_kind h (kind_of_parentheses hb) rfl)).bind
    intro p hp
    exact .ite (fun _ => .give hp) fun _ => asking_fail hE hname (by simp)
  · refine .ite (fun _ => asking_fail hE hname (by simp)) fun _ => ?_
    refine .ite (fun _ => asking_fail hE hname (by simp)) fun _ => ?_
    exact (asking_expression h).bind fun p hp => .give hp

theorem asking_rootIndex (h : I .plain ts) :
    Asking I E (fun p => I .plain p.2) fun deeper => rootIndex c deeper ts := by
  simp only [rootIndex]
  split
  · next ht =>
    exact (asking_enclosed hI hE .square (hI.drop_of_kind h ht rfl)).bind fun p hp => .give hp
  · next ht =>
    exact (asking_enclosed hI hE .tallSquare (hI.drop_of_kind h ht rfl)).bind fun p hp => .give hp
  · exact .give h

theorem asking_root (h : I .plain ts) :
    Asking I E (fun p => I .plain p.2) fun deeper => root c deeper ts := by
  apply (asking_rootIndex hI hE h).bind
  intro p hp
  exact (asking_braced hI hE hp).bind fun q hq => .give hq

theorem asking_fraction (h : I .plain ts) :
    Asking I E (fun p => I .plain p.2) fun deeper => fraction c deeper ts := by
  apply (asking_braced hI hE h).bind
  intro p hp
  exact (asking_braced hI hE hp).bind fun q hq => .give hq

theorem asking_named (t : Token) (h : I .plain ts) :
    Asking I E (fun p => I .plain p.2) fun deeper => named c deeper t ts := by
  refine .ite (fun ht => ?_) fun _ => .give h
  exact (asking_arguments hI hE .paren (hI.drop_of_kind h ht rfl)).bind fun p hp => .give hp

theorem asking_barred (h : I .plain ts) :
    Asking I E (fun p => I .plain p.2) fun deeper => barred c deeper bars ts := by
  apply (asking_expression h).bind
  intro p hp
  exact (asking_expect hI hE .bar hp rfl).bind fun us hus => .give hus

omit hI in
theorem asking_assignment (target value : Expr) (ht : V t) :
    Asking I E (fun _ => True) fun _ => assignment c target value t := by
  cases target with
  | name x => exact .give trivial
  | call g args =>
    simp only [assignment]
    split
    · exact .ite (fun _ => .give trivial) fun _ => asking_fail hE ht (by simp)
    · exact asking_fail hE ht (by simp)
  | _ => exact asking_fail hE ht (by simp)

theorem asking_operators (fuel : Nat) (left : Expr) (h : I .plain ts) :
    Asking I E (fun p => I .plain p.2) fun deeper =>
      operators c deeper power bars bare fuel left ts := by
  induction fuel generalizing left ts with
  | zero => exact .give h
  | succ fuel ih =>
    cases ts with
    | nil => exact .give h
    | cons t ts =>
      simp only [operators]
      split
      · next ht =>
        have hts : I .power ts := hI.tail h (by rw [ht]; rfl)
        exact .ite (fun _ => .give h) fun _ => .ask (q := .exponent bars ts) hts fun p hp => ih _ hp
      · next op hpow ht =>
        have hts : I .plain ts := hI.tail h (Token.next_operator ht hpow)
        exact .ite (fun _ => .give h) fun _ => (asking_expression hts).bind fun p hp => ih _ hp
      · next ht =>
        have hts : I .plain ts := hI.tail h (by rw [ht]; rfl)
        refine .ite (fun _ => .give h) fun _ => (asking_expression hts).bind fun p hp => ?_
        exact (asking_assignment hE left p.1 (hE.seen _ t ts h)).bind fun e _ => ih e hp
      · exact .ite (fun _ => (asking_expression h).bind fun p hp => ih _ hp) fun _ => .give h

include hc

omit hE in
theorem asking_powerSuffix (h : I .plain ts) :
    Asking I E (fun p => I .plain p.2) fun deeper => powerSuffix c deeper bars ts := by
  refine .ite (fun ht => ?_) fun _ => .give h
  obtain ⟨t, us, rfl, hpow⟩ := exists_of_current hc ht (by simp)
  have hus : I .power us := hI.tail h (by rw [hpow]; rfl)
  exact .ask (q := .exponent bars us) hus fun _ hp => .give hp

theorem asking_builtinCall (k : Builtin) (special : Option Expr) (hname : V name)
    (h : I .plain ts) :
    Asking I E (fun p => I .plain p.2) fun deeper =>
      builtinCall c deeper k special name bars ts := by
  apply (asking_powerSuffix hI hc h).bind
  intro p hp
  exact (asking_builtinArguments hI hE k hname hp).bind fun q hq => .give hq

theorem asking_logBase (h : I .base ts) :
    Asking I E (fun p => I .plain p.2) fun deeper => logBase c deeper ts := by
  simp only [logBase]
  split
  · next ht =>
    obtain ⟨t, us, rfl, hopening⟩ := exists_of_current hc ht (by simp)
    have hrun : t.isDigitRun = false := by rw [Token.isDigitRun, hopening]; rfl
    have hus := hI.next .base t us h (by rw [hrun, Bool.and_false])
    rw [hopening] at hus
    exact asking_enclosed hI hE .brace hus
  · next ht =>
    obtain ⟨t, us, rfl, hnumber⟩ := exists_of_current hc ht (by simp)
    rw [current_cons]
    refine .ite (fun hrun => ?_) fun hrun => .give ?_
    · exact (asking_split hI hE h rfl hrun).bind fun p hp => .give hp
    · have hus := hI.next .base t us h (by rw [Bool.eq_false_iff.mpr hrun, Bool.and_false])
      rw [hnumber] at hus
      exact hus
  · exact asking_fail hE (hE.current h) (by simp)

theorem asking_logarithm (hname : V name) (h : I .log ts) :
    Asking I E (fun p => I .plain p.2) fun deeper => logarithm c deeper name bars ts := by
  refine .ite (fun ht => ?_) fun ht => ?_
  · obtain ⟨t, us, rfl, hsubscript⟩ := exists_of_current hc ht (by simp)
    have hus := hI.next .log t us h rfl
    rw [hsubscript] at hus
    apply (asking_logBase hI hE hc hus).bind
    intro p hp
    exact asking_builtinCall hI hE hc .log (some p.1) hname hp
  · refine asking_builtinCall hI hE hc .log none hname
      (hI.plain .log ts h fun t hmem => Token.passes_log ?_)
    rwa [current, List.headD_eq_head?_getD, hmem] at ht

end

/-- Behind the first token of tokens with one property the other one holds, which also gives the
first. -/
structure Behind (K I : Token.Stage → List Token → Prop) : Prop where
  outer : Closed K
  inner : Closed I
  next : ∀ stage t ts, K stage (t :: ts) → (stage.cuts && t.isDigitRun) = false →
    I (stage.next t.kind) ts
  outer_of_inner : ∀ stage ts, I stage ts → K stage ts

theorem Closed.behind (hI : Closed I) : Behind I I :=
  ⟨hI, hI, hI.next, fun _ _ h => h⟩

theorem Behind.tail (hb : Behind K I) (h : K .plain (t :: ts))
    (hstage : Token.Stage.plain.next t.kind = stage) : I stage ts :=
  hstage ▸ hb.next .plain t ts h rfl

section
variable (hb : Behind K I) (hE : Blames c K V E) (hc : c.done.kind = .done)
include hb hE hc

theorem asking_atom (h : K .plain ts) :
    Asking I E (fun p => I .plain p.2) fun deeper => atom c deeper bars ts := by
  have hI := hb.inner
  have hE' := hE.mono hb.outer_of_inner
  cases ts with
  | nil => exact asking_fail hE hE.done (by simp)
  | cons t ts =>
    have hts {kind : Token.Kind} (ht : t.kind = kind) (hstage : Token.Stage.plain.next kind =
        .plain) : I .plain ts := hb.tail h (ht ▸ hstage)
    have ht := hE.seen _ t ts h
    simp only [atom]
    split
    · next hkind => exact .give (hts hkind rfl)
    · next hkind => exact asking_named hI hE' t (hts hkind rfl)
    · next hkind =>
      exact (asking_arguments hI hE' .square (hts hkind rfl)).bind fun p hp => .give hp
    · next hkind =>
      exact (asking_arguments hI hE' .tallSquare (hts hkind rfl)).bind fun p hp => .give hp
    · next hkind =>
      exact (asking_enclosed hI hE' .tallBar (hts hkind rfl)).bind fun p hp => .give hp
    · next hkind => exact asking_enclosed hI hE' _ (hts hkind rfl)
    · next hkind => exact asking_barred hI hE' (hts hkind rfl)
    · next hkind => exact asking_fraction hI hE' (hts hkind rfl)
    · next hkind => exact asking_root hI hE' (hts hkind rfl)
    · next hkind => exact asking_logarithm hI hE' hc ht (hb.tail h (by rw [hkind]; rfl))
    · next hlog hkind =>
      exact asking_builtinCall hI hE' hc _ none ht (hts hkind (Token.next_builtin hlog))
    · exact asking_fail hE ht (by simp)

theorem asking_primary (h : K .plain ts) :
    Asking I E (fun p => I .plain p.2) fun deeper => primary c deeper bars ts := by
  apply (asking_atom hb hE hc h).bind
  intro p hp
  exact .give (closed_factorials hb.inner p.1 hp)

theorem asking_signed (h : K .plain ts) :
    Asking I E (fun p => I .plain p.2) fun deeper => signed c deeper bars ts := by
  simp only [signed]
  split
  · next op hsign =>
    cases ts with
    | nil =>
      rw [current, List.headD_nil, Token.sign?, hc] at hsign
      cases hsign
    | cons t ts =>
      have hts : I .plain ts := hb.tail h ((Token.next_sign hsign).trans (if_neg (by decide)))
      exact (asking_expression hts).bind fun p hp => .give hp
  · exact asking_primary hb hE hc h

theorem asking_expressionAt (h : K .plain ts) :
    Asking I E (fun p => I .plain p.2) fun deeper => expressionAt c deeper power bars bare ts := by
  apply (asking_signed hb hE hc h).bind
  intro p hp
  exact asking_operators hb.inner (hE.mono hb.outer_of_inner) p.2.length p.1 hp

theorem asking_exponentOperand (h : K .power ts) :
    Asking I E (fun p => K .plain p.2) fun deeper => exponentOperand c deeper bars ts := by
  have hspan := closed_spanSigns hb.outer h
  have hsign := sign_spanSigns hc ts
  simp only [exponentOperand]
  generalize spanSigns ts = p at hspan hsign
  obtain ⟨signs, ts⟩ := p
  refine .ite (fun hrun => ?_) fun hrun => ?_
  · cases ts with
    | nil => simp [current, Token.isDigitRun, hc] at hrun
    | cons t ts => exact (asking_split hb.outer hE hspan rfl hrun).bind fun p hp => .give hp
  · have hplain : K .plain ts := by
      refine hb.outer.plain .power ts hspan fun t hmem => ?_
      have hcurrent : current c ts = t := by rw [current, List.headD_eq_head?_getD, hmem]; rfl
      rw [hcurrent] at hsign hrun
      exact Token.passes_power hsign (Bool.eq_false_iff.mpr hrun)
    exact (asking_primary hb hE hc hplain).bind fun p hp => .give (hb.outer_of_inner _ p.2 hp)

theorem asking_exponentAt (h : K .power ts) :
    Asking I E (fun p => K .plain p.2) fun deeper => exponentAt c deeper bars ts := by
  apply (asking_exponentOperand hb hE hc h).bind
  rintro ⟨base, ts⟩ hp
  refine .ite (fun hpow => ?_) fun _ => .give hp
  obtain ⟨t, us, rfl, ht⟩ := exists_of_current hc hpow (by simp)
  have hus : I .power us := hb.tail hp (by rw [ht]; rfl)
  exact .ask (q := .exponent bars us) hus fun p hp => .give (hb.outer_of_inner _ p.2 hp)

theorem asking_above (q : Question) (h : K q.stage q.tokens) :
    Asking I E (fun p => K .plain p.2) fun deeper => (above c deeper).answer q := by
  cases q with
  | expression power bars bare ts =>
    exact (asking_expressionAt hb hE hc h).mono fun p => hb.outer_of_inner _ p.2
  | exponent bars ts => exact asking_exponentAt hb hE hc h

end

/-- A computation gives something with the property `Q`, or stops for a reason in `E`. -/
def Meets (E : Stop → Prop) (Q : α → Prop) : Except Stop α → Prop
  | .ok a => Q a
  | .error e => E e

theorem Meets.bind {r : Except Stop α} {f : α → Except Stop β} (h : Meets E Q r)
    (hf : ∀ a, Q a → Meets E R (f a)) : Meets E R (r >>= f) := by
  cases r with
  | ok a => exact hf a h
  | error e => exact h

theorem Asking.meets {deeper : Level} (h : Asking I E Q F)
    (hd : ∀ q : Question, I q.stage q.tokens → Meets E (fun p => I .plain p.2) (deeper.answer q)) :
    Meets E Q (F deeper) := by
  induction h with
  | give h => exact h
  | stop h => exact h
  | ask hq _ ih => exact (hd _ hq).bind ih

/-- The readers of every level stop for the reasons of their own, or at the limit of nesting. -/
theorem meets_level (hI : Closed I) (hE : Blames c I V E) (hc : c.done.kind = .done)
    (hdeep : ∀ t, V t →
      E (.failure (.parse ⟨.nestedTooDeep c.limit, t.pos,
        if c.source.isEmpty then none else some c.source⟩)))
    (n : Nat) (q : Question) (hq : I q.stage q.tokens) :
    Meets E (fun p => I .plain p.2) ((level c n).answer q) := by
  induction n generalizing q with
  | zero => cases q <;> exact hdeep _ (hE.current hq)
  | succ n ih => exact (asking_above hI.behind hE hc q hq).meets ih

end UnitSheet.Parser
