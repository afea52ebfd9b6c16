import UnitSheet.Proofs.Expr.Progress

namespace UnitSheet

namespace Parser

variable {α : Type} {I : List Token → Prop} {E : Stop → Prop} {Q : α → Prop}
variable {F : Level → Except Stop α}
variable {c : Context} {deeper : Level} {q r : Question} {stack : List Question} {e : Stop}
variable {limit : Int} {n : Nat}

open Classical in
/-- Readers that stop for a given reason where they are asked for `q`. -/
noncomputable def Level.stoppingAt (deeper : Level) (q : Question) (e : Stop) : Level where
  expression power bars bare ts :=
    if .expression power bars bare ts = q then .error e else deeper.expression power bars bare ts
  exponent bars ts := if .exponent bars ts = q then .error e else deeper.exponent bars ts

theorem answer_stoppingAt_self : (deeper.stoppingAt q e).answer q = .error e := by
  cases q <;> exact if_pos rfl

theorem answer_stoppingAt (h : r ≠ q) : (deeper.stoppingAt q e).answer r = deeper.answer r := by
  cases r <;> exact if_neg h

/-- A computation over the deeper readers asks them for `q`: it stops for whatever they would stop
there. -/
def Asks (F : Level → Except Stop α) (deeper : Level) (q : Question) : Prop :=
  ∀ e, F (deeper.stoppingAt q e) = .error e

theorem Asks.stop (h : Asks F deeper q) (hq : deeper.answer q = .error e) :
    F deeper = .error e := by
  have hsame : deeper.stoppingAt q e = deeper := by
    have hanswer (r : Question) : (deeper.stoppingAt q e).answer r = deeper.answer r := by
      by_cases hr : r = q
      · rw [hr, answer_stoppingAt_self, hq]
      · exact answer_stoppingAt hr
    obtain ⟨expression, exponent⟩ := deeper
    rw [Level.stoppingAt, Level.mk.injEq]
    refine ⟨?_, ?_⟩
    · funext power bars bare ts
      exact hanswer (.expression power bars bare ts)
    · funext bars ts
      exact hanswer (.exponent bars ts)
  rw [← h e, hsame]

/-- A conversation stops for a reason of its own or for one of the deeper readers, which it has
asked then. -/
theorem Asking.error (h : Asking (fun _ => I) E Q F) {loose : Stop → Prop}
    (hd : deeper.Tracks loose I deeper)
    (he : F deeper = .error e) :
    E e ∨ ∃ q, I q.tokens ∧ deeper.answer q = .error e ∧ Asks F deeper q := by
  induction h with
  | give h => cases he
  | stop h =>
    cases he
    exact .inl h
  | @ask q f hq _ ih =>
    dsimp only at he
    cases hanswer : deeper.answer q with
    | error e' =>
      rw [hanswer] at he
      cases he
      refine .inr ⟨q, hq, hanswer, fun e => ?_⟩
      dsimp only
      rw [answer_stoppingAt_self]
      rfl
    | ok p =>
      rw [hanswer] at he
      rcases ih p ((hd.answer q hq).of_ok hanswer) he with h | ⟨r, hr, hstop, hasks⟩
      · exact .inl h
      · refine .inr ⟨r, hr, hstop, fun e => ?_⟩
        have hne : q ≠ r := by
          rintro rfl
          cases hanswer.symm.trans hstop
        dsimp only
        rw [answer_stoppingAt hne, hanswer]
        exact hasks e

/-- With `n` levels left the reading of `q` asks for `r`, which leaves one level less. -/
def AsksFor (c : Context) (n : Nat) (q r : Question) : Prop :=
  Asks (fun deeper => (above c deeper).answer q) (level c n) r

/-- A reading asks about fewer tokens than it was asked about. -/
theorem AsksFor.length_lt (hc : c.done.kind = .done) (h : AsksFor c n q r) :
    r.tokens.length < q.tokens.length := by
  by_contra hlength
  have hb := behind_later q.tokens
  have hself := tracks_level_self hb.inner hc n
  have hd (e : Stop) : (level c n).Tracks (fun _ => False)
      (fun us => Later q.tokens us ∧ us.length < q.tokens.length) ((level c n).stoppingAt r e) := by
    apply Level.Tracks.of_answer
    intro s hs
    have hne : s ≠ r := by
      rintro rfl
      exact hlength hs.2
    rw [answer_stoppingAt hne]
    exact hself.answer s hs
  -- the reading does not notice what stops the readers at `r`, but stops for it
  have hsame (e : Stop) : (above c (level c n)).answer q = .error e := by
    rw [← ((asking_above hb blames_all hc q .refl).follows (hd e)).eq]
    exact h e
  cases (hsame (.fault .infiniteAngle)).symm.trans (hsame (.fault .infiniteModulus))

/-- The levels that are open at once, the outermost first, when `q` is read with `n` levels left. -/
inductive Open (c : Context) : Nat → Question → List Question → Prop
  | single (n : Nat) (q : Question) : Open c (n + 1) q [q]
  | cons {n : Nat} {q r : Question} {stack : List Question} (h : AsksFor c n q r)
      (hs : Open c n r stack) : Open c (n + 1) q (q :: stack)

theorem Open.length_le (h : Open c n q stack) : stack.length ≤ n := by
  induction h with
  | single n q => exact Nat.succ_le_succ (Nat.zero_le n)
  | cons _ _ ih => exact Nat.succ_le_succ ih

theorem Open.length_pos (h : Open c n q stack) : 0 < stack.length := by
  cases h <;> exact Nat.succ_pos _

theorem Open.length_le_tokens (hc : c.done.kind = .done) (h : Open c n q stack) :
    stack.length ≤ q.tokens.length + 1 := by
  induction h with
  | single n q => exact Nat.succ_le_succ (Nat.zero_le _)
  | cons h _ ih => exact Nat.succ_le_succ (Nat.le_trans ih (h.length_lt hc))

/-- A reading that has ended with the error of the limit. -/
def TooDeep (limit : Int) (r : Except Stop α) : Prop :=
  ∃ pos source, r = .error (.failure (.parse ⟨.nestedTooDeep limit, pos, source⟩))

def IsOther (e : Stop) : Prop := ∀ limit : Int, ¬ TooDeep limit (.error e : Except Stop Unit)

theorem blames_isOther : Blames c (fun _ => I) (fun _ => True) IsOther where
  own := by
    rintro cause t hcause - limit ⟨pos, source, h⟩
    cases h
    exact hcause limit rfl
  fault := by
    rintro stage t ts f - - - - limit ⟨pos, source, h⟩
    cases h
  done := trivial
  seen := fun _ _ _ _ => trivial

theorem TooDeep.asksFor (hc : c.done.kind = .done)
    (h : TooDeep limit ((level c (n + 1)).answer q)) :
    ∃ r, r.tokens.length < q.tokens.length ∧ AsksFor c n q r ∧ TooDeep limit
      ((level c n).answer r) := by
  obtain ⟨pos, source, h⟩ := h
  have hb := behind_later q.tokens
  have hself := tracks_level_self hb.inner hc n
  rcases (asking_above hb blames_isOther hc q .refl).error hself h with
    hother | ⟨r, hr, hstop, hasks⟩
  · exact absurd ⟨pos, source, rfl⟩ (hother limit)
  · exact ⟨r, hr.2, hasks, pos, source, hstop⟩

theorem AsksFor.tooDeep (h : AsksFor c n q r) (hr : TooDeep limit ((level c n).answer r)) :
    TooDeep limit ((level c (n + 1)).answer q) := by
  obtain ⟨pos, source, hr⟩ := hr
  exact ⟨pos, source, h.stop hr⟩

theorem not_tooDeep (hc : c.done.kind = .done) (h : q.tokens.length < n) :
    ¬ TooDeep limit ((level c n).answer q) := by
  induction n generalizing q with
  | zero => exact absurd h (Nat.not_lt_zero _)
  | succ n ih =>
    intro htoo
    obtain ⟨r, hr, -, htoo⟩ := htoo.asksFor hc
    exact ih (Nat.lt_of_lt_of_le hr (Nat.le_of_lt_succ h)) htoo

theorem tooDeep_zero (q : Question) : TooDeep c.limit ((level c 0).answer q) := by
  cases q <;> exact ⟨_, _, rfl⟩

/-- A reading ends with an error of nesting if and only if no level is left for it, or as many
levels are open at once as are left and the innermost one asks for another. -/
theorem tooDeep_iff (hc : c.done.kind = .done) : TooDeep c.limit ((level c n).answer q) ↔
    n = 0 ∨ ∃ stack s r, Open c n q (stack ++ [s]) ∧ (stack ++ [s]).length = n ∧
      AsksFor c 0 s r := by
  induction n generalizing q with
  | zero => exact iff_of_true (tooDeep_zero q) (.inl rfl)
  | succ n ih =>
    constructor
    · intro h
      obtain ⟨r, -, hasks, h⟩ := h.asksFor hc
      rcases ih.mp h with rfl | ⟨stack, s, r', hopen, hlength, hlast⟩
      · exact .inr ⟨[], q, r, .single 0 q, rfl, hasks⟩
      · exact .inr ⟨q :: stack, s, r', .cons hasks hopen, congrArg Nat.succ hlength, hlast⟩
    · rintro (h | ⟨stack, s, r, hopen, hlength, hlast⟩)
      · cases h
      · cases stack with
        | nil =>
          obtain rfl : n = 0 := (Nat.succ.inj hlength).symm
          cases hopen with
          | single => exact hlast.tooDeep (tooDeep_zero r)
          | cons _ hs => cases hs
        | cons q' stack =>
          rw [List.cons_append] at hopen hlength
          generalize hinner : stack ++ [s] = inner at hopen hlength
          cases hopen with
          | single => simp at hinner
          | cons h hs =>
            subst hinner
            exact h.tooDeep (ih.mpr (.inr ⟨stack, s, r, hs, Nat.succ.inj hlength, hlast⟩))

theorem TooDeep.complete {r : Except Stop (Expr × List Token)} (h : TooDeep limit r) :
    TooDeep limit (r >>= Expr.complete c) := by
  obtain ⟨pos, source, rfl⟩ := h
  exact ⟨pos, source, rfl⟩

theorem tooDeep_complete_iff {r : Except Stop (Expr × List Token)} :
    TooDeep limit (r >>= Expr.complete c) ↔ TooDeep limit r := by
  refine ⟨fun h => ?_, TooDeep.complete⟩
  cases r with
  | error e =>
    obtain ⟨pos, source, h⟩ := h
    cases h
    exact ⟨pos, source, rfl⟩
  | ok p =>
    obtain ⟨e, us⟩ := p
    obtain ⟨pos, source, h⟩ := h
    cases us <;> cases h

/-- With fewer levels the readings follow those with more levels up to an error of nesting. -/
theorem answer_eq_or_tooDeep (c' : Context) (hc : c.done.kind = .done)
    (hsource : c'.source = c.source)
    (hdone : c'.done = c.done) {m : Nat} (h : m ≤ n) (q : Question) :
    (level c m).answer q = (level c' n).answer q ∨ TooDeep c.limit ((level c m).answer q) := by
  have hI : Closed fun _ _ => True :=
    ⟨fun _ _ _ _ _ => trivial, fun _ _ _ _ _ _ _ _ _ => trivial, fun _ _ _ _ => trivial⟩
  have hd : (level c m).Tracks
      (fun e => TooDeep c.limit (.error e : Except Stop (Expr × List Token)))
      (fun _ => True) (level c' n) := by
    refine tracks_level hI hc hsource hdone h fun _ t stop hstop => ?_
    cases hstop
    exact ⟨_, _, rfl⟩
  have hq := hd.answer q trivial
  cases hanswer : (level c m).answer q with
  | ok p =>
    rw [hanswer] at hq
    exact .inl hq.1.symm
  | error e =>
    rw [hanswer] at hq
    exact hq.symm.imp Eq.symm id

end Parser

namespace Expr

open UnitSheet.Parser (TooDeep Open AsksFor)

/-- What the limit of nesting does to the reading of some tokens: a lower limit changes the outcome
to its error or not at all, a limit of as many levels as tokens has no error, and never more levels
are open at once than the limit says or than there are tokens. The error occurs just if a level
beyond the limit is asked for. -/
structure LimitsNesting (tokens : List Token) (source : String) : Prop where
  cutsOff : ∀ limit limit' : Int, limit ≤ limit' →
    ofTokens tokens source limit = ofTokens tokens source limit' ∨
      TooDeep limit (ofTokens tokens source limit)
  enough : ∀ limit : Int, tokens.length ≤ limit →
    ∀ limit', ¬ TooDeep limit' (ofTokens tokens source limit)
  open_le : ∃ body done, tokens = body ++ [done] ∧ done.kind = .done ∧
    (∀ t ∈ body, t.kind ≠ .done) ∧ ∀ limit : Int,
      (∀ stack, Open ⟨source, limit, done⟩ limit.toNat (.expression 0 0 false body) stack →
        stack.length ≤ limit ∧ stack.length ≤ tokens.length) ∧
      (body ≠ [] → (TooDeep limit (ofTokens tokens source limit) ↔ limit ≤ 0 ∨
        ∃ stack s r, Open ⟨source, limit, done⟩ limit.toNat (.expression 0 0 false body)
          (stack ++ [s]) ∧ (stack ++ [s]).length = limit ∧ AsksFor ⟨source, limit, done⟩ 0 s r))

section
variable {body : List Token} {done : Token} (hbody : ∀ t ∈ body, t.kind ≠ .done)
variable (hdone : done.kind = .done) (source : String) {limit limit' : Int}
include hbody hdone

theorem ofTokens_eq_or_tooDeep (h : limit ≤ limit') :
    ofTokens (body ++ [done]) source limit = ofTokens (body ++ [done]) source limit' ∨
      TooDeep limit (ofTokens (body ++ [done]) source limit) := by
  rw [ofTokens_concat hbody hdone, ofTokens_concat hbody hdone]
  split
  · exact .inl rfl
  · have hc : (⟨source, limit, done⟩ : Parser.Context).done.kind = .done := hdone
    rcases Parser.answer_eq_or_tooDeep ⟨source, limit', done⟩ hc rfl rfl (Int.toNat_le_toNat h)
      (.expression 0 0 false body) with heq | htoo
    · refine .inl ?_
      change (Parser.level ⟨source, limit, done⟩ limit.toNat).answer (.expression 0 0 false body)
        >>= _ = _
      rw [heq]
      rfl
    · exact .inr htoo.complete

theorem tooDeep_ofTokens_iff (hne : body ≠ []) :
    TooDeep limit' (ofTokens (body ++ [done]) source limit) ↔
      TooDeep limit'
        ((Parser.level ⟨source, limit, done⟩ limit.toNat).answer (.expression 0 0 false body)) := by
  rw [ofTokens_concat hbody hdone, if_neg hne]
  exact Parser.tooDeep_complete_iff

end

/-- The limit of nesting only cuts off, in the reading of any source. -/
theorem tokenized_limitsNesting (source : String) (tokens : List Token)
    (h : Token.tokenize source = .ok tokens) : LimitsNesting tokens source := by
  obtain ⟨body, pos, pos', rest, hscans, -, rfl⟩ := Token.tokenize_eq_ok h
  have hbody := hscans.kind_ne_done
  have hdone : (Token.endToken pos').kind = .done := rfl
  refine ⟨fun limit limit' => ofTokens_eq_or_tooDeep hbody hdone source, ?_, body, _, rfl, hdone,
    hbody, ?_⟩
  · intro limit hlimit limit' htoo
    by_cases hne : body = []
    · subst hne
      obtain ⟨_, _, htoo⟩ := htoo
      cases htoo
    · rw [tooDeep_ofTokens_iff hbody hdone source hne] at htoo
      have hlevels : body.length < limit.toNat := by
        rw [List.length_append, List.length_singleton] at hlimit
        omega
      exact Parser.not_tooDeep (c := ⟨source, limit, _⟩) hdone hlevels htoo
  · intro limit
    refine ⟨fun stack hopen => ?_, fun hne => ?_⟩
    · have hlimit := hopen.length_le
      have htokens := hopen.length_le_tokens hdone
      have hpos := hopen.length_pos
      rw [List.length_append, List.length_singleton]
      exact ⟨by omega, htokens⟩
    · rw [tooDeep_ofTokens_iff hbody hdone source hne]
      refine (Parser.tooDeep_iff (c := ⟨source, limit, Token.endToken pos'⟩) hdone).trans ?_
      have hlength (stack : List Parser.Question) (s : Parser.Question) :
          (stack ++ [s]).length = limit.toNat ↔ ((stack ++ [s]).length : Int) = limit := by
        rw [List.length_append, List.length_singleton]
        omega
      simp only [hlength, Int.toNat_eq_zero]

theorem split_limitsNesting : Token.tokenize "x^-23\\log_28" = .ok splitTokens ∧
    LimitsNesting splitTokens "x^-23\\log_28" := by
  have htokens : Token.tokenize "x^-23\\log_28" = .ok splitTokens := rfl
  exact ⟨htokens, tokenized_limitsNesting _ _ htokens⟩

/-- A sign with nothing behind it opens a second level at the end of the source. -/
example : TooDeep 1 (parse "-" 1) ∧
    parse "-" 2 = .error (.failure (.parse ⟨.unexpectedEnd, 1, some "-"⟩)) :=
  ⟨⟨1, some "-", rfl⟩, rfl⟩

end Expr

end UnitSheet
