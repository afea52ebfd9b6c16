import UnitSheet.Proofs.Expr.Following
import UnitSheet.Proofs.Expr.Legibility
import UnitSheet.Proofs.Token.Respacing

namespace UnitSheet

namespace Parser

variable {α β : Type} {c c' : Context} {deeper : Level} {ts us body : List Token}
variable {bars power n : Nat} {bare : Bool}

/-- What may remain of some tokens: those behind the first ones, the front one perhaps without a
digit. -/
inductive Later (ts : List Token) : List Token → Prop
  | refl : Later ts ts
  | drop {t : Token} {us : List Token} (h : Later ts (t :: us)) : Later ts us
  | split {t : Token} {us : List Token} {digit : Literal} {rest : Token} (h : Later ts (t :: us))
      (hrun : t.isDigitRun = true) (hsplit : t.splitDigit = .ok (digit, rest)) : Later ts
        (rest :: us)

theorem Later.length_le (h : Later ts us) : us.length ≤ ts.length := by
  induction h with
  | refl => exact Nat.le_refl _
  | drop _ ih => exact Nat.le_of_succ_le ih
  | split _ _ _ ih => exact ih

theorem closed_later (ts : List Token) : Closed fun _ => Later ts :=
  ⟨fun _ _ _ h _ => h.drop, fun _ _ _ _ _ h _ => h.split, fun _ _ h _ => h⟩

theorem behind_later (ts : List Token) :
    Behind (fun _ => Later ts) fun _ us => Later ts us ∧ us.length < ts.length where
  outer := closed_later ts
  inner := by
    refine ⟨fun _ t us h _ => ⟨h.1.drop, Nat.lt_of_succ_lt h.2⟩, ?_, fun _ _ h _ => h⟩
    intro _ t us digit rest h _ hrun hsplit
    exact ⟨h.1.split hrun hsplit, h.2⟩
  next := fun _ t us h _ => ⟨h.drop, h.length_le⟩
  outer_of_inner := fun _ _ h => h.1

theorem operators_limit {source : String} {done : Token} (limit limit' : Int) (fuel : Nat)
    (left : Expr) (ts : List Token) :
    operators ⟨source, limit', done⟩ deeper power bars bare fuel left ts =
      operators ⟨source, limit, done⟩ deeper power bars bare fuel left ts := by
  induction fuel generalizing left ts with
  | zero => rfl
  | succ fuel ih =>
    cases ts with
    | nil => rfl
    | cons t ts =>
      simp only [operators, ih]
      rfl

theorem above_limit (hsource : c'.source = c.source) (hdone : c'.done = c.done) :
    above c' deeper = above c deeper := by
  obtain ⟨source, limit, done⟩ := c
  obtain ⟨source', limit', done'⟩ := c'
  cases hsource
  cases hdone
  have hexpression : expressionAt ⟨source, limit', done⟩ deeper =
      expressionAt ⟨source, limit, done⟩ deeper := by
    funext power bars bare ts
    simp only [expressionAt, operators_limit limit limit']
    rfl
  rw [above, above, hexpression]
  rfl

/-- Fewer levels read the same as more levels until they run out, and leave tokens with what
dropping and splitting keep. -/
theorem tracks_level {I : List Token → Prop} {loose : Stop → Prop} {m : Nat}
    (hI : Closed fun _ => I)
    (hc : c.done.kind = .done) (hsource : c'.source = c.source) (hdone : c'.done = c.done)
    (h : m ≤ n) (hloose : m < n ∨ c'.limit ≠ c.limit → ∀ t stop,
      (fail c (.nestedTooDeep c.limit) t : Except Stop Expr) = .error stop → loose stop) :
    (level c m).Tracks loose I (level c' n) := by
  induction m generalizing n with
  | zero =>
    by_cases heq : n = 0 ∧ c'.limit = c.limit
    · obtain ⟨rfl, hlimit⟩ := heq
      obtain rfl : c' = c := by
        cases c
        cases c'
        cases hsource
        cases hdone
        cases hlimit
        rfl
      exact ⟨fun _ _ _ _ _ => follows_fail _ _, fun _ _ _ => follows_fail _ _⟩
    · have hfail := hloose (by omega)
      exact ⟨fun _ _ _ _ _ => .inl (hfail _ _ rfl), fun _ _ _ => .inl (hfail _ _ rfl)⟩
  | succ m ih =>
    obtain ⟨n, rfl⟩ := Nat.exists_eq_add_one_of_ne_zero (Nat.ne_zero_of_lt h)
    have hd := ih (Nat.le_of_succ_le_succ h) fun hlt => hloose (hlt.imp_left Nat.succ_lt_succ)
    rw [level_succ n, above_limit hsource hdone]
    exact ⟨fun _ _ _ => tracks_expressionAt hI.behind hd hc,
      fun _ => tracks_exponentAt hI.behind hd hc⟩

theorem tracks_level_self {I : List Token → Prop} (hI : Closed fun _ => I)
    (hc : c.done.kind = .done) (n : Nat) : (level c n).Tracks (fun _ => False) I (level c n) :=
  tracks_level hI hc rfl rfl (Nat.le_refl n) fun h => absurd h (by simp)

theorem expression_later (hc : c.done.kind = .done) {e : Expr}
    (h : (level c n).expression power bars bare ts = .ok (e, us)) :
    Later ts us ∧ us.length < ts.length := by
  cases n with
  | zero => cases h
  | succ n =>
    have hb := behind_later ts
    exact (tracks_expressionAt hb (tracks_level_self hb.inner hc n) hc ts .refl).of_ok h

theorem exponent_later (hc : c.done.kind = .done) {e : Expr}
    (h : (level c n).exponent bars ts = .ok (e, us)) : Later ts us := by
  cases n with
  | zero => cases h
  | succ n =>
    have hb := behind_later ts
    exact (tracks_exponentAt hb (tracks_level_self hb.inner hc n) hc ts .refl).of_ok h

structure Level.AgreesAt (deeper deeper' : Level) (ts : List Token) : Prop where
  expression : ∀ power bars bare, deeper'.expression power bars bare ts =
    deeper.expression power bars bare ts
  exponent : ∀ bars, deeper'.exponent bars ts = deeper.exponent bars ts

theorem agreesAt_above (hc : c.done.kind = .done)
    (h : ∀ us, Later ts us → us.length < ts.length → (level c n).AgreesAt deeper us) :
    (level c (n + 1)).AgreesAt (above c deeper) ts := by
  have hb := behind_later ts
  have hlevel := tracks_level_self hb.inner hc n
  have hd : (level c n).Tracks (fun _ => False) (fun us => Later ts us ∧ us.length < ts.length)
      deeper := by
    refine ⟨fun power bars bare us hus => ?_, fun bars us hus => ?_⟩
    · rw [(h us hus.1 hus.2).expression]
      exact hlevel.expression power bars bare us hus
    · rw [(h us hus.1 hus.2).exponent]
      exact hlevel.exponent bars us hus
  exact ⟨fun _ _ _ => (tracks_expressionAt hb hd hc ts .refl).eq,
    fun _ => (tracks_exponentAt hb hd hc ts .refl).eq⟩

/-- What the readers take of the tokens: an expression has a token of its own, an exponent may be a
digit. -/
structure Level.Shortens (deeper : Level) : Prop where
  expression : ∀ {power bars bare ts e us}, deeper.expression power bars bare ts = .ok (e, us) →
    us.length < ts.length
  exponent : ∀ {bars ts e us}, deeper.exponent bars ts = .ok (e, us) → us.length ≤ ts.length

theorem level_shortens (hc : c.done.kind = .done) (n : Nat) : (level c n).Shortens :=
  ⟨fun h => (expression_later hc h).2, fun h => (exponent_later hc h).length_le⟩

theorem bind_congr_ok {r : Except Stop α} {f g : α → Except Stop β}
    (h : ∀ a, r = .ok a → f a = g a) : (r >>= f) = (r >>= g) := by
  cases r with
  | ok a => exact h a rfl
  | error e => rfl

/-- With a round for every token the loop of operators ends by itself. -/
theorem operators_fuel (hd : deeper.Shortens) {fuel fuel' : Nat} (h : ts.length ≤ fuel)
    (h' : ts.length ≤ fuel') (left : Expr) :
    operators c deeper power bars bare fuel left ts =
      operators c deeper power bars bare fuel' left ts := by
  induction fuel generalizing fuel' left ts with
  | zero =>
    obtain rfl : ts = [] := List.eq_nil_of_length_eq_zero (Nat.le_zero.mp h)
    cases fuel' <;> rfl
  | succ fuel ih =>
    cases ts with
    | nil => cases fuel' <;> rfl
    | cons t ts =>
      obtain ⟨fuel', rfl⟩ := Nat.exists_eq_add_one_of_ne_zero (Nat.ne_zero_of_lt h')
      have hfuel := Nat.le_of_succ_le_succ h
      have hfuel' := Nat.le_of_succ_le_succ h'
      rw [operators, operators]
      split
      · split
        · rfl
        · apply bind_congr_ok
          rintro ⟨right, us⟩ hr
          have hus := hd.exponent hr
          exact ih (Nat.le_trans hus hfuel) (Nat.le_trans hus hfuel') _
      · split
        · rfl
        · apply bind_congr_ok
          rintro ⟨right, us⟩ hr
          have hus := Nat.le_of_lt (hd.expression hr)
          exact ih (Nat.le_trans hus hfuel) (Nat.le_trans hus hfuel') _
      · split
        · rfl
        · apply bind_congr_ok
          rintro ⟨value, us⟩ hr
          have hus := Nat.le_of_lt (hd.expression hr)
          apply bind_congr_ok
          intro e _
          exact ih (Nat.le_trans hus hfuel) (Nat.le_trans hus hfuel') e
      · split
        · apply bind_congr_ok
          rintro ⟨right, us⟩ hr
          have hus := Nat.le_of_lt_succ (hd.expression hr)
          exact ih (Nat.le_trans hus hfuel) (Nat.le_trans hus hfuel') _
        · rfl

theorem moreArguments_fuel (hd : deeper.Shortens) {fuel fuel' : Nat} (h : ts.length ≤ fuel)
    (h' : ts.length ≤ fuel') : moreArguments deeper fuel ts = moreArguments deeper fuel' ts := by
  induction fuel generalizing fuel' ts with
  | zero =>
    obtain rfl : ts = [] := List.eq_nil_of_length_eq_zero (Nat.le_zero.mp h)
    cases fuel' <;> rfl
  | succ fuel ih =>
    cases ts with
    | nil => cases fuel' <;> rfl
    | cons t ts =>
      obtain ⟨fuel', rfl⟩ := Nat.exists_eq_add_one_of_ne_zero (Nat.ne_zero_of_lt h')
      rw [moreArguments, moreArguments]
      split
      · apply bind_congr_ok
        rintro ⟨e, us⟩ hr
        have hus := Nat.le_of_lt (hd.expression hr)
        dsimp only
        rw [ih (Nat.le_trans hus (Nat.le_of_succ_le_succ h))
          (Nat.le_trans hus (Nat.le_of_succ_le_succ h'))]
      · rfl

/-- Reading at some tokens, with whatever number of levels. The token in view is the front one of
those that remain or the end token behind them. -/
structure MovesOn (c : Context) (ts : List Token) : Prop where
  current : (ts ++ [c.done]).head? = some (current c ts)
  expression : ∀ n power bars bare e us,
    (level c n).expression power bars bare ts = .ok (e, us) → Later ts us ∧ us.length < ts.length
  exponent : ∀ n bars e us, (level c n).exponent bars ts = .ok (e, us) → Later ts us
  deeper : ∀ n deeper, (∀ us, Later ts us → us.length < ts.length → (level c n).AgreesAt deeper us)
    → (level c (n + 1)).AgreesAt (above c deeper) ts
  operators : ∀ n power bars bare fuel left, ts.length ≤ fuel →
    operators c (level c n) power bars bare fuel left ts =
      operators c (level c n) power bars bare ts.length left ts
  arguments : ∀ n fuel, ts.length ≤ fuel →
    moreArguments (level c n) fuel ts = moreArguments (level c n) ts.length ts

theorem movesOn (hc : c.done.kind = .done) (ts : List Token) : MovesOn c ts where
  current := by cases ts <;> rfl
  expression := fun _ _ _ _ _ _ => expression_later hc
  exponent := fun _ _ _ _ => exponent_later hc
  deeper := fun _ _ => agreesAt_above hc
  operators := fun n _ _ _ _ left h => operators_fuel (level_shortens hc n) h (Nat.le_refl _) left
  arguments := fun n _ h => moreArguments_fuel (level_shortens hc n) h (Nat.le_refl _)

end Parser

namespace Expr

def complete (c : Parser.Context) (p : Expr × List Token) : Except Stop Expr :=
  match p.2 with
  | [] => .ok p.1
  | t :: _ => Parser.fail c (.trailing t.text) t

theorem ofTokens_concat {body : List Token} {done : Token} (hbody : ∀ t ∈ body, t.kind ≠ .done)
    (hdone : done.kind = .done) (source : String) (limit : Int) :
    ofTokens (body ++ [done]) source limit =
      if body = [] then Parser.fail ⟨source, limit, done⟩ .empty done
      else (Parser.level ⟨source, limit, done⟩ limit.toNat).expression 0 0 false body >>=
        complete ⟨source, limit, done⟩ := by
  have hlast : (body ++ [done]).getLast? = some done := List.getLast?_concat
  have hfind : (body ++ [done]).find? (·.kind = .done) = some done := by
    rw [List.find?_append, List.find?_eq_none.mpr fun t ht => by simpa using hbody t ht,
      Option.none_or, List.find?_cons_of_pos (by simpa using hdone)]
  have htake : (body ++ [done]).takeWhile (·.kind ≠ .done) = body := by
    rw [List.takeWhile_append_of_pos fun t ht => by simpa using hbody t ht,
      List.takeWhile_cons_of_neg (by simpa using hdone), List.append_nil]
  rw [ofTokens, hlast, hfind]
  dsimp only
  rw [if_neg (not_not.mpr hdone), htake]
  cases body with
  | nil => rfl
  | cons t ts =>
    rw [if_neg (List.cons_ne_nil t ts)]
    rfl

/-- The tokens before the end are an expression if and only if a reading of them leaves nothing. -/
theorem ofTokens_eq_ok_iff {body : List Token} {done : Token} (hbody : ∀ t ∈ body, t.kind ≠ .done)
    (hdone : done.kind = .done) (source : String) (limit : Int) (e : Expr) :
    ofTokens (body ++ [done]) source limit = .ok e ↔
      (Parser.level ⟨source, limit, done⟩ limit.toNat).expression 0 0 false body = .ok (e, []) := by
  rw [ofTokens_concat hbody hdone]
  split
  · next hnil =>
    have hnone (h : (Parser.level ⟨source, limit, done⟩ limit.toNat).expression 0 0 false body =
        .ok (e, [])) : False := by
      rw [hnil] at h
      exact Nat.lt_irrefl 0 (Parser.expression_later hdone h).2
    exact iff_of_false (by simp [Parser.fail]) hnone
  · cases (Parser.level ⟨source, limit, done⟩ limit.toNat).expression 0 0 false body with
    | error stop => exact iff_of_false (fun h => (by cases h)) fun h => (by cases h)
    | ok p =>
      obtain ⟨e', rest⟩ := p
      cases rest with
      | nil => exact ⟨fun h => (by cases h; rfl), fun h => (by cases h; rfl)⟩
      | cons u us => exact iff_of_false (fun h => (by cases h)) fun h => (by cases h)

/-- Tokens end with the only end token and are read to an expression or an error of the parser. On
the way there remain tokens that move on, never more than stand before the end token. -/
structure ReadsOn (tokens : List Token) (source : String) (limit : Int) : Prop where
  outcome : (∃ e, ofTokens tokens source limit = .ok e) ∨
    ∃ e, ofTokens tokens source limit = .error (.failure (.parse e))
  moves : ∃ body done, tokens = body ++ [done] ∧ done.kind = .done ∧ (∀ t ∈ body, t.kind ≠ .done) ∧
    (∀ e, ofTokens tokens source limit = .ok e ↔
      (Parser.level ⟨source, limit, done⟩ limit.toNat).expression 0 0 false body = .ok (e, [])) ∧
    ∀ ts, Parser.Later body ts → ts.length ≤ body.length ∧ Parser.MovesOn ⟨source, limit, done⟩ ts

/-- The parser is total on the tokens of a source, whatever the limit of nesting. -/
theorem tokenized_readsOn (source : String) (tokens : List Token)
    (h : Token.tokenize source = .ok tokens) (limit : Int) : ReadsOn tokens source limit := by
  refine ⟨?_, ?_⟩
  · have hreads := reads_ofTokens_of_tokenize h limit
    cases hr : ofTokens tokens source limit with
    | ok e => exact .inl ⟨e, rfl⟩
    | error stop =>
      obtain ⟨e, rfl⟩ := hreads.parse_error hr
      exact .inr ⟨e, rfl⟩
  · obtain ⟨body, pos, pos', rest, hscans, -, rfl⟩ := Token.tokenize_eq_ok h
    refine ⟨body, Token.endToken pos', rfl, rfl, hscans.kind_ne_done, ?_, ?_⟩
    · exact ofTokens_eq_ok_iff hscans.kind_ne_done rfl source limit
    · intro ts hts
      exact ⟨hts.length_le, Parser.movesOn rfl ts⟩

def splitTokens : List Token :=
  [{ kind := .name, text := "x", pos := 0 },
   { kind := .operator (.arithmetic .pow), text := "^", pos := 1 },
   { kind := .operator (.arithmetic .sub), text := "-", pos := 2 },
   { kind := .number, text := "23", pos := 3, value := 23 },
   { kind := .builtin .log, text := "\\log", pos := 5 },
   { kind := .subscript, text := "_", pos := 9 },
   { kind := .number, text := "28", pos := 10, value := 28 },
   { kind := .done, text := "", pos := 12 }]

theorem split_readsOn :
    Token.tokenize "x^-23\\log_28" = .ok splitTokens ∧ ReadsOn splitTokens "x^-23\\log_28" 4 := by
  have htokens : Token.tokenize "x^-23\\log_28" = .ok splitTokens := rfl
  exact ⟨htokens, tokenized_readsOn _ _ htokens 4⟩

end Expr

end UnitSheet
