import UnitSheet.Proofs.Expr.Runs
import UnitSheet.Proofs.Expr.Progress

namespace UnitSheet

namespace Parser

open Token (cutRuns)

variable {α β γ δ : Type} {c : Context} {deeper : Level} {ts : List Token} {t : Token}
variable {stage : Token.Stage}
variable {bars power : Nat} {bare : Bool} {r r' : Except Stop (α × List Token)}

/-- A reading that leaves its tokens cut. -/
def recut (r : Except Stop (α × List Token)) : Except Stop (α × List Token) :=
  r.map fun p => (p.1, cutRuns .plain p.2)

theorem map_bind {r : Except Stop γ} {r' : Except Stop δ} {g : γ → δ}
    {f : γ → Except Stop (β × List Token)}
    {f' : δ → Except Stop (β × List Token)} (h : r' = r.map g)
    (hf : ∀ a, r = .ok a → f' (g a) = recut (f a)) : (r' >>= f') = recut (r >>= f) := by
  subst h
  cases r with
  | ok a => exact hf a rfl
  | error e => rfl

theorem recut_bind {f f' : α × List Token → Except Stop (β × List Token)} (h : r' = recut r)
    (hf : ∀ a us, r = .ok (a, us) → f' (a, cutRuns .plain us) = recut (f (a, us))) :
    (r' >>= f') = recut (r >>= f) :=
  map_bind h fun p hp => hf p.1 p.2 hp

structure Level.Recuts (deeper : Level) : Prop where
  shortens : deeper.Shortens
  expression : ∀ power bars bare ts,
    deeper.expression power bars bare (cutRuns .plain ts) =
      recut (deeper.expression power bars bare ts)
  exponent : ∀ bars ts, deeper.exponent bars (cutRuns .power ts) = recut (deeper.exponent bars ts)

theorem current_cutRuns : current c (cutRuns .plain ts) = current c ts := by
  cases ts with
  | nil => rfl
  | cons t ts => rw [Token.cutRuns_plain_cons, current_cons, current_cons]

theorem drop_cutRuns (stage : Token.Stage)
    (h : Token.Stage.plain.next (current c ts).kind = stage) :
    (cutRuns .plain ts).drop 1 = cutRuns stage (ts.drop 1) := by
  cases ts with
  | nil => rfl
  | cons t ts =>
    rw [current_cons] at h
    rw [Token.cutRuns_plain_cons, drop_cons, drop_cons, h]

theorem expect_cutRuns (kind : Token.Kind) (hkind : Token.Stage.plain.next kind = .plain) :
    expect c kind (cutRuns .plain ts) = (expect c kind ts).map (cutRuns .plain) := by
  rw [expect, expect, current_cutRuns]
  split
  · next h =>
    rw [drop_cutRuns .plain (by rw [h]; exact hkind)]
    rfl
  · rfl

theorem factorials_cutRuns (e : Expr) :
    factorials e (cutRuns .plain ts) =
      ((factorials e ts).1, cutRuns .plain (factorials e ts).2) := by
  induction ts generalizing e with
  | nil => rfl
  | cons t ts ih =>
    rw [Token.cutRuns_plain_cons, factorials, factorials]
    split
    · next h =>
      rw [h]
      exact ih _
    · rw [Token.cutRuns_plain_cons]

theorem spanSigns_cutRuns :
    spanSigns (cutRuns .power ts) = ((spanSigns ts).1, cutRuns .power (spanSigns ts).2) := by
  induction ts with
  | nil => rfl
  | cons t ts ih =>
    cases hsign : t.sign? with
    | some op =>
      have hcut : (Token.Stage.power.cuts && t.isDigitRun) = false := by
        rw [Token.isDigitRun_sign hsign, Bool.and_false]
      rw [Token.cutRuns_cons hcut, Token.next_sign hsign, if_pos rfl, spanSigns, spanSigns, hsign]
      dsimp only
      rw [ih]
    | none =>
      have hspan (u : Token) (us : List Token) (hu : u.sign? = none) :
          spanSigns (u :: us) = ([], u :: us) := by
        rw [spanSigns, hu]
      rw [hspan t ts hsign, cutRuns]
      split
      · exact hspan _ _ rfl
      · exact hspan _ _ hsign

theorem cutRuns_run (stage : Token.Stage) (ts : List Token) (hcuts : stage.cuts = true)
    (hrun : t.isDigitRun = true) :
    (∃ f, split t = .error (.fault f) ∧ cutRuns stage (t :: ts) = t :: cutRuns .plain ts) ∨
      ∃ digit rest d, split t = .ok (digit, rest) ∧ cutRuns stage
        (t :: ts) = d :: cutRuns .plain (rest :: ts) ∧
        d.kind = .number ∧ d.isDigitRun = false ∧ d.literal = digit ∧ rest.kind = .number := by
  have hkind := Token.kind_of_isDigitRun hrun
  cases hsplit : t.splitDigit with
  | error f =>
    refine .inl ⟨f, by rw [split, hsplit]; rfl, ?_⟩
    rw [Token.cutRuns_fault hsplit, hkind]
    rfl
  | ok p =>
    obtain ⟨digit, rest⟩ := p
    obtain ⟨hdigit, hrest⟩ := splitDigit_eq_ok hsplit
    refine .inr ⟨digit, rest, Token.digitToken t digit, by rw [split, hsplit]; rfl, ?_, rfl, ?_,
      hdigit.symm, hrest⟩
    · rw [Token.cutRuns_split hcuts hrun hsplit, Token.cutRuns_plain_cons, hrest]
      rfl
    · exact Token.isDigitRun_digitToken hsplit

theorem pos_cutRuns (stage : Token.Stage) :
    (current c (cutRuns stage ts)).pos = (current c ts).pos := by
  cases ts with
  | nil => rfl
  | cons t ts =>
    rw [cutRuns]
    split <;> rfl

section
variable (hd : deeper.Recuts)
include hd

theorem recut_enclosed (b : Bracket) (ts : List Token) :
    enclosed c deeper b (cutRuns .plain ts) = recut (enclosed c deeper b ts) := by
  apply recut_bind (hd.expression 0 0 false ts)
  intro e us _
  exact map_bind (expect_cutRuns (.closing b) rfl) fun vs _ => rfl

theorem recut_braced (ts : List Token) :
    braced c deeper (cutRuns .plain ts) = recut (braced c deeper ts) := by
  rw [braced, braced, current_cutRuns]
  split
  · next h =>
    rw [drop_cutRuns .plain (by rw [h]; rfl)]
    exact recut_enclosed hd .brace _
  · rfl

theorem recut_moreArguments {fuel fuel' : Nat} (h : ts.length ≤ fuel)
    (h' : (cutRuns .plain ts).length ≤ fuel') :
    moreArguments deeper fuel' (cutRuns .plain ts) = recut (moreArguments deeper fuel ts) := by
  induction fuel generalizing fuel' ts with
  | zero =>
    obtain rfl : ts = [] := List.eq_nil_of_length_eq_zero (Nat.le_zero.mp h)
    cases fuel' <;> rfl
  | succ fuel ih =>
    cases ts with
    | nil => cases fuel' <;> rfl
    | cons t ts =>
      rw [Token.cutRuns_plain_cons] at h' ⊢
      obtain ⟨fuel', rfl⟩ := Nat.exists_eq_add_one_of_ne_zero (Nat.ne_zero_of_lt h')
      rw [moreArguments, moreArguments]
      split
      · next ht =>
        have hcomma : Token.Stage.plain.next t.kind = .plain := by rw [ht]; rfl
        rw [hcomma] at h' ⊢
        have hread := hd.expression 0 0 false ts
        apply recut_bind hread
        intro e us hr
        rw [hr] at hread
        have hus := Nat.le_of_lt (hd.shortens.expression hr)
        have hus' := Nat.le_of_lt (hd.shortens.expression hread)
        apply recut_bind (ih (Nat.le_trans hus (Nat.le_of_succ_le_succ h))
          (Nat.le_trans hus' (Nat.le_of_succ_le_succ h')))
        intro es vs _
        rfl
      · rw [← Token.cutRuns_plain_cons]
        rfl

theorem recut_arguments (b : Bracket) (ts : List Token) :
    arguments c deeper b (cutRuns .plain ts) = recut (arguments c deeper b ts) := by
  rw [arguments, arguments, current_cutRuns]
  split
  · next h =>
    rw [drop_cutRuns .plain (by rw [h]; rfl)]
    rfl
  · apply recut_bind (hd.expression 0 0 false ts)
    intro e us _
    apply recut_bind (recut_moreArguments hd (Nat.le_refl _) (Nat.le_refl _))
    intro es vs _
    exact map_bind (expect_cutRuns (.closing b) rfl) fun ws _ => rfl

theorem recut_builtinArguments (k : Builtin) (name : Token) (ts : List Token) :
    builtinArguments c deeper k name bars (cutRuns .plain ts) = recut
      (builtinArguments c deeper k name bars ts) := by
  have hsame : parentheses? c (cutRuns .plain ts) = parentheses? c ts := by
    rw [parentheses?, parentheses?, current_cutRuns]
  rw [builtinArguments, builtinArguments, hsame, current_cutRuns]
  split
  · next b hb =>
    have hopening := kind_of_parentheses hb
    rw [drop_cutRuns .plain (by rw [hopening]; rfl)]
    apply recut_bind (recut_arguments hd b _)
    intro args us _
    dsimp only
    split <;> rfl
  · split
    · rfl
    · split
      · rfl
      · exact recut_bind (hd.expression 19 bars true ts) fun e us _ => rfl

theorem recut_powerSuffix (ts : List Token) :
    powerSuffix c deeper bars (cutRuns .plain ts) = recut (powerSuffix c deeper bars ts) := by
  rw [powerSuffix, powerSuffix, current_cutRuns]
  split
  · next h =>
    rw [drop_cutRuns .power (by rw [h]; rfl)]
    exact recut_bind (hd.exponent bars _) fun e us _ => rfl
  · rfl

theorem recut_builtinCall (k : Builtin) (special : Option Expr) (name : Token) (ts : List Token) :
    builtinCall c deeper k special name bars (cutRuns .plain ts) =
      recut (builtinCall c deeper k special name bars ts) := by
  apply recut_bind (recut_powerSuffix hd ts)
  intro exponent us _
  exact recut_bind (recut_builtinArguments hd k name us) fun args vs _ => rfl

theorem recut_rootIndex (ts : List Token) :
    rootIndex c deeper (cutRuns .plain ts) = recut (rootIndex c deeper ts) := by
  have hindex (b : Bracket) (us : List Token) :
      (enclosed c deeper b (cutRuns .plain us) >>= fun p => .ok (some p.1, p.2)) =
        recut (enclosed c deeper b us >>= fun p => .ok (some p.1, p.2)) :=
    recut_bind (recut_enclosed hd b us) fun e us _ => rfl
  rw [rootIndex, rootIndex, current_cutRuns]
  split
  · next h =>
    rw [drop_cutRuns .plain (by rw [h]; rfl)]
    exact hindex .square _
  · next h =>
    rw [drop_cutRuns .plain (by rw [h]; rfl)]
    exact hindex .tallSquare _
  · rfl

theorem recut_root (ts : List Token) :
    root c deeper (cutRuns .plain ts) = recut (root c deeper ts) := by
  apply recut_bind (recut_rootIndex hd ts)
  intro index us _
  exact recut_bind (recut_braced hd us) fun e vs _ => rfl

theorem recut_fraction (ts : List Token) :
    fraction c deeper (cutRuns .plain ts) = recut (fraction c deeper ts) := by
  apply recut_bind (recut_braced hd ts)
  intro numerator us _
  exact recut_bind (recut_braced hd us) fun denominator vs _ => rfl

theorem recut_named (t : Token) (ts : List Token) :
    named c deeper t (cutRuns .plain ts) = recut (named c deeper t ts) := by
  rw [named, named]
  dsimp only
  rw [current_cutRuns]
  split
  · next h =>
    rw [drop_cutRuns .plain (by rw [h]; rfl)]
    exact recut_bind (recut_arguments hd .paren _) fun args us _ => rfl
  · rfl

theorem recut_barred (ts : List Token) :
    barred c deeper bars (cutRuns .plain ts) = recut (barred c deeper bars ts) := by
  apply recut_bind (hd.expression 0 (bars + 1) false ts)
  intro e us _
  exact map_bind (expect_cutRuns .bar rfl) fun vs _ => rfl

variable (hc : c.done.kind = .done)
include hc

theorem recut_logBase (ts : List Token) :
    logBase c deeper (cutRuns .base ts) = recut (logBase c deeper ts) := by
  have hnumber (d : Token) (us : List Token) (hkind : d.kind = .number) :
      logBase c deeper (d :: us) =
      if d.isDigitRun then split d >>= fun p => .ok (.literal p.1, p.2 :: us) else .ok
        (.literal d.literal, us) := by
    rw [logBase, current_cons, hkind]
    rfl
  cases ts with
  | nil =>
    rw [cutRuns, logBase, current, List.headD_nil, hc]
    rfl
  | cons t ts =>
    cases hrun : t.isDigitRun with
    | true =>
      have hkind := Token.kind_of_isDigitRun hrun
      rw [hnumber t ts hkind, if_pos hrun]
      rcases cutRuns_run .base ts rfl hrun with
        ⟨f, hsplit, hcut⟩ | ⟨digit, rest, d, hsplit, hcut, hd, hsingle, hliteral, -⟩
      · rw [hcut, hnumber t _ hkind, if_pos hrun, hsplit]
        rfl
      · rw [hcut, hnumber d _ hd, hsingle, hsplit, hliteral]
        rfl
    | false =>
      rw [Token.cutRuns_cons (by rw [hrun, Bool.and_false]), logBase, logBase, current_cons,
        current_cons, drop_cons, drop_cons]
      dsimp only
      rw [hrun]
      split
      · next h =>
        rw [h]
        exact recut_enclosed hd .brace ts
      · next h =>
        rw [h]
        rfl
      · rfl

theorem recut_logarithm (name : Token) (ts : List Token) :
    logarithm c deeper name bars (cutRuns .log ts) = recut (logarithm c deeper name bars ts) := by
  by_cases hsubscript : (current c ts).kind = .subscript
  · cases ts with
    | nil => exact absurd hsubscript (current_nil hc .subscript (by simp))
    | cons t ts =>
      rw [current_cons] at hsubscript
      have hnext : Token.Stage.log.next t.kind = .base := by rw [hsubscript]; rfl
      rw [Token.cutRuns_cons rfl, hnext, logarithm, logarithm, current_cons, current_cons,
        if_pos hsubscript, if_pos hsubscript, drop_cons, drop_cons]
      apply recut_bind (recut_logBase hd hc ts)
      intro base us _
      exact recut_builtinCall hd .log (some base) name us
  · rw [cutRuns_log hsubscript, logarithm, logarithm, current_cutRuns, if_neg hsubscript,
      if_neg hsubscript]
    exact recut_builtinCall hd .log none name ts

theorem recut_atom (ts : List Token) :
    atom c deeper bars (cutRuns .plain ts) = recut (atom c deeper bars ts) := by
  cases ts with
  | nil => rfl
  | cons t ts =>
    rw [Token.cutRuns_plain_cons, atom, atom]
    split
    · next h =>
      rw [h]
      rfl
    · next h =>
      rw [h]
      exact recut_named hd t ts
    · next h =>
      rw [h]
      exact recut_bind (recut_arguments hd .square ts) fun items us _ => rfl
    · next h =>
      rw [h]
      exact recut_bind (recut_arguments hd .tallSquare ts) fun items us _ => rfl
    · next h =>
      rw [h]
      exact recut_bind (recut_enclosed hd .tallBar ts) fun e us _ => rfl
    · next h =>
      rw [h]
      exact recut_enclosed hd _ ts
    · next h =>
      rw [h]
      exact recut_barred hd ts
    · next h =>
      rw [h]
      exact recut_fraction hd ts
    · next h =>
      rw [h]
      exact recut_root hd ts
    · next h =>
      rw [h]
      exact recut_logarithm hd hc t ts
    · next f hroot hlog h =>
      rw [h, Token.next_builtin hlog]
      exact recut_builtinCall hd f none t ts
    · rfl

theorem recut_primary (ts : List Token) :
    primary c deeper bars (cutRuns .plain ts) = recut (primary c deeper bars ts) := by
  apply recut_bind (recut_atom hd hc ts)
  intro e us _
  exact congrArg Except.ok (factorials_cutRuns e)

theorem recut_signed (ts : List Token) :
    signed c deeper bars (cutRuns .plain ts) = recut (signed c deeper bars ts) := by
  rw [signed, signed, current_cutRuns]
  split
  · next op hop =>
    rw [drop_cutRuns .plain (Token.next_sign hop)]
    exact recut_bind (hd.expression 15 bars false _) fun e us _ => rfl
  · exact recut_primary hd hc ts

omit hc in
theorem recut_operators {fuel fuel' : Nat} (h : ts.length ≤ fuel)
    (h' : (cutRuns .plain ts).length ≤ fuel')
    (left : Expr) : operators c deeper power bars bare fuel' left (cutRuns .plain ts) =
      recut (operators c deeper power bars bare fuel left ts) := by
  induction fuel generalizing fuel' left ts with
  | zero =>
    obtain rfl : ts = [] := List.eq_nil_of_length_eq_zero (Nat.le_zero.mp h)
    cases fuel' <;> rfl
  | succ fuel ih =>
    cases ts with
    | nil => cases fuel' <;> rfl
    | cons t ts =>
      have hplain := hd.expression 21 bars false (t :: ts)
      rw [Token.cutRuns_plain_cons] at h' hplain ⊢
      obtain ⟨fuel', rfl⟩ := Nat.exists_eq_add_one_of_ne_zero (Nat.ne_zero_of_lt h')
      have hfuel := Nat.le_of_succ_le_succ h
      have hfuel' := Nat.le_of_succ_le_succ h'
      rw [operators, operators]
      split
      · next ht =>
        split
        · rw [← Token.cutRuns_plain_cons]
          rfl
        · have hpower : Token.Stage.plain.next t.kind = .power := by rw [ht]; rfl
          rw [hpower] at hfuel' ⊢
          have hread := hd.exponent bars ts
          apply recut_bind hread
          intro right us hr
          rw [hr] at hread
          exact ih (Nat.le_trans (hd.shortens.exponent hr) hfuel)
            (Nat.le_trans (hd.shortens.exponent hread) hfuel') _
      · next op hne ht =>
        split
        · rw [← Token.cutRuns_plain_cons]
          rfl
        · have hplain := Token.next_operator ht hne
          rw [hplain] at hfuel' ⊢
          have hread := hd.expression (op.power + 1) bars false ts
          apply recut_bind hread
          intro right us hr
          rw [hr] at hread
          exact ih (Nat.le_trans (Nat.le_of_lt (hd.shortens.expression hr)) hfuel)
            (Nat.le_trans (Nat.le_of_lt (hd.shortens.expression hread)) hfuel') _
      · next ht =>
        split
        · rw [← Token.cutRuns_plain_cons]
          rfl
        · have hplain : Token.Stage.plain.next t.kind = .plain := by rw [ht]; rfl
          rw [hplain] at hfuel' ⊢
          have hread := hd.expression 1 bars false ts
          apply recut_bind hread
          intro value us hr
          rw [hr] at hread
          have hassign : assignment c left value t = (assignment c left value t).map id := by
            cases assignment c left value t <;> rfl
          refine map_bind hassign fun e _ => ?_
          exact ih (Nat.le_trans (Nat.le_of_lt (hd.shortens.expression hr)) hfuel)
            (Nat.le_trans (Nat.le_of_lt (hd.shortens.expression hread)) hfuel') _
      · split
        · apply recut_bind hplain
          intro right us hr
          rw [hr] at hplain
          exact ih (Nat.le_of_lt_succ (Nat.lt_of_lt_of_le (hd.shortens.expression hr) h))
            (Nat.le_of_lt_succ (Nat.lt_of_lt_of_le (hd.shortens.expression hplain) h')) _
        · rw [← Token.cutRuns_plain_cons]
          rfl

theorem recut_expressionAt (ts : List Token) :
    expressionAt c deeper power bars bare (cutRuns .plain ts) =
      recut (expressionAt c deeper power bars bare ts) := by
  apply recut_bind (recut_signed hd hc ts)
  intro left us _
  exact recut_operators hd (Nat.le_refl _) (Nat.le_refl _) left

theorem recut_exponentOperand (ts : List Token) :
    exponentOperand c deeper bars (cutRuns .power ts) = recut
      (exponentOperand c deeper bars ts) := by
  have hsign := sign_spanSigns hc ts
  rw [exponentOperand, exponentOperand, spanSigns_cutRuns]
  generalize spanSigns ts = p at hsign
  obtain ⟨signs, ts⟩ := p
  dsimp only at hsign ⊢
  cases hrun : (current c ts).isDigitRun with
  | false =>
    rw [cutRuns_power hsign hrun, current_cutRuns, hrun]
    exact recut_bind (recut_primary hd hc ts) fun e us _ => rfl
  | true =>
    cases ts with
    | nil => simp [current, Token.isDigitRun, hc] at hrun
    | cons t ts =>
      rw [current_cons] at hrun
      rcases cutRuns_run .power ts rfl hrun with
        ⟨f, hsplit, hcut⟩ | ⟨digit, rest, d, hsplit, hcut, hkind, hsingle, hliteral, hrest⟩
      · rw [hcut, current_cons, current_cons, hrun, hsplit]
        rfl
      · have hprimary : primary c deeper bars (d :: cutRuns .plain (rest :: ts)) =
            .ok (.literal digit, cutRuns .plain (rest :: ts)) := by
          have hmarks : factorials (.literal digit) (cutRuns .plain (rest :: ts)) =
              (.literal digit, cutRuns .plain (rest :: ts)) := by
            rw [Token.cutRuns_plain_cons]
            exact if_neg (by simp [hrest])
          rw [primary, atom, hkind, hliteral]
          exact congrArg Except.ok hmarks
        rw [hcut, current_cons, current_cons, hsingle, hprimary, hsplit]
        rfl

theorem recut_exponentAt (ts : List Token) :
    exponentAt c deeper bars (cutRuns .power ts) = recut (exponentAt c deeper bars ts) := by
  apply recut_bind (recut_exponentOperand hd hc ts)
  intro base us _
  dsimp only
  rw [current_cutRuns]
  split
  · next h =>
    rw [drop_cutRuns .power (by rw [h]; rfl)]
    exact recut_bind (hd.exponent bars _) fun e vs _ => rfl
  · rfl

end

theorem level_recuts (hc : c.done.kind = .done) (n : Nat) : (level c n).Recuts := by
  induction n with
  | zero =>
    have hfail (stage : Token.Stage) (ts : List Token) :
        (fail c (.nestedTooDeep c.limit) (current c (cutRuns stage ts)) : Except Stop (Expr ×
          List Token)) = recut (fail c (.nestedTooDeep c.limit) (current c ts)) := by
      rw [fail, pos_cutRuns]
      rfl
    exact ⟨level_shortens hc 0, fun _ _ _ => hfail .plain, fun _ => hfail .power⟩
  | succ n ih =>
    exact ⟨level_shortens hc (n + 1), fun _ _ _ => recut_expressionAt ih hc,
      fun _ => recut_exponentAt ih hc⟩

end Parser

namespace Expr

open Token (cutRuns)

theorem complete_cutRuns {c : Parser.Context} (p : Expr × List Token) :
    complete c (p.1, cutRuns .plain p.2) = complete c p := by
  obtain ⟨e, ts⟩ := p
  cases ts <;> rfl

/-- Tokens are read alike whether their runs of digits are cut before or on the way. -/
theorem ofTokens_cutRuns {body : List Token} {done : Token} (hbody : ∀ t ∈ body, t.kind ≠ .done)
    (hdone : done.kind = .done) (source : String) (limit : Int) :
    ofTokens (cutRuns .plain (body ++ [done])) source limit = ofTokens
      (body ++ [done]) source limit := by
  have hrun : done.isDigitRun = false := by rw [Token.isDigitRun, hdone]; rfl
  have hcut := Token.kind_cutRuns .plain (fun k => k ≠ .done) (by simp) hbody
  rw [Token.cutRuns_concat hrun, ofTokens_concat hbody hdone, ofTokens_concat hcut hdone]
  by_cases hnil : body = []
  · subst hnil
    rfl
  · rw [if_neg hnil, if_neg (mt Token.cutRuns_eq_nil.mp hnil),
      (Parser.level_recuts hdone limit.toNat).expression 0 0 false body]
    cases (Parser.level ⟨source, limit, done⟩ limit.toNat).expression 0 0 false body with
    | error e => rfl
    | ok p => exact complete_cutRuns p

/-- In the tokens of a source every run of digits can be split, and to cut those behind `^` and
behind `\log_` in advance changes neither the expression that is read nor the error. -/
theorem tokenized_cutRuns (source : String) (tokens : List Token)
    (h : Token.tokenize source = .ok tokens) :
    (∀ t ∈ tokens, t.isDigitRun = true → ∃ digit rest, t.splitDigit = .ok (digit, rest)) ∧
      ∀ limit : Int, ofTokens (cutRuns .plain tokens) source limit =
        ofTokens tokens source limit := by
  constructor
  · intro t ht hrun
    obtain ⟨digit, rest, hsplit, -⟩ := (Token.tokenize_splittable h t ht).splitDigit hrun
    exact ⟨digit, rest, hsplit⟩
  · intro limit
    obtain ⟨body, pos, pos', rest, hscans, -, rfl⟩ := Token.tokenize_eq_ok h
    exact ofTokens_cutRuns hscans.kind_ne_done rfl source limit

theorem split_cutRuns : Token.tokenize "x^-23\\log_28" = .ok splitTokens ∧
    (∀ t ∈ splitTokens, t.isDigitRun = true → ∃ digit rest, t.splitDigit = .ok (digit, rest)) ∧
    ∀ limit : Int, ofTokens (cutRuns .plain splitTokens) "x^-23\\log_28" limit =
      ofTokens splitTokens "x^-23\\log_28" limit := by
  have htokens : Token.tokenize "x^-23\\log_28" = .ok splitTokens := rfl
  exact ⟨htokens, tokenized_cutRuns _ _ htokens⟩

/-- Of the two runs of digits in `x^-23\log_28` the first digits stand alone. -/
example : (cutRuns .plain splitTokens).map (·.text) = ["x", "^", "-", "2", "3", "\\log", "_", "2",
    "8", ""] := rfl

end Expr

end UnitSheet
