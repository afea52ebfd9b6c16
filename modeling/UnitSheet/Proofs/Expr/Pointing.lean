import UnitSheet.Proofs.Expr.Progress
import UnitSheet.Proofs.Token.Truncation

namespace UnitSheet

namespace Token

/-- The stage that the tokens in front of others have led to; that they say nothing is always
possible. -/
inductive Leads : List Token → Stage → Prop
  | plain (ts : List Token) : Leads ts .plain
  | power {ts : List Token} {t : Token}
      (ht : t.kind = .operator (.arithmetic .pow)) : Leads (ts ++ [t]) .power
  | sign {ts : List Token} {t : Token} {op : UnaryOp} (h : Leads ts .power)
      (ht : t.sign? = some op) : Leads (ts ++ [t]) .power
  | log {ts : List Token} {t : Token} (ht : t.kind = .builtin .log) : Leads (ts ++ [t]) .log
  | base {ts : List Token} {t : Token} (h : Leads ts .log)
      (ht : t.kind = .subscript) : Leads (ts ++ [t]) .base

/-- Where an error may point in some tokens: to one of them, or behind the first digit of a run that
is cut. -/
inductive Spot (tokens : List Token) : Int → Prop
  | token {t : Token} (ht : t ∈ tokens) : Spot tokens t.pos
  | inner {before after : List Token} {run : Token} {stage : Stage}
      (htokens : tokens = before ++ run :: after)
      (h : Leads before stage) (hcuts : stage.cuts = true) (hrun : run.isDigitRun = true) :
      Spot tokens (run.pos + 1)

variable {ts body : List Token} {t done : Token} {stage : Stage} {pos : Int}

theorem Leads.next (h : Leads ts stage) (t : Token) : Leads (ts ++ [t]) (stage.next t.kind) := by
  unfold Stage.next
  split
  · next hpow => exact .power hpow
  · next hadd =>
    split
    · next hpower =>
      subst hpower
      exact .sign h (show t.sign? = some .pos by rw [sign?, hadd])
    · exact .plain _
  · next hsub =>
    split
    · next hpower =>
      subst hpower
      exact .sign h (show t.sign? = some .neg by rw [sign?, hsub])
    · exact .plain _
  · next hlog => exact .log hlog
  · next hsubscript =>
    split
    · next hstage =>
      subst hstage
      exact .base h hsubscript
    · exact .plain _
  · exact .plain _

theorem Spot.concat (h : Spot body pos) (done : Token) : Spot (body ++ [done]) pos := by
  cases h with
  | token ht => exact .token (List.mem_append_left _ ht)
  | inner htokens h hcuts hrun =>
    subst htokens
    rw [List.append_assoc]
    exact .inner rfl h hcuts hrun

end Token

namespace Parser

open Token (Leads Spot)

variable {body ts : List Token} {stage : Token.Stage} {c : Context}

/-- What remains of some tokens: the last ones, or these behind what is left of a run. -/
inductive Remains (body : List Token) : Token.Stage → List Token → Prop
  | last {before ts : List Token} {stage : Token.Stage} (hbody : body = before ++ ts)
    (h : Leads before stage) : Remains body stage ts
  | cut {before after : List Token} {run rest : Token} {digit : Literal} {stage : Token.Stage}
      (hbody : body = before ++ run :: after) (h : Leads before stage) (hcuts : stage.cuts = true)
      (hrun : run.isDigitRun = true) (hsplit : run.splitDigit = .ok (digit, rest)) :
      Remains body .plain (rest :: after)

theorem closed_remains (body : List Token) : Closed (Remains body) where
  next := by
    intro stage t ts h hcut
    cases h with
    | last hbody h =>
      subst hbody
      exact .last (List.append_assoc _ [t] ts).symm (h.next t)
    | @cut before _ run _ _ _ hbody _ _ _ hsplit =>
      have hplain : Token.Stage.plain.next t.kind = .plain := by
        rw [(splitDigit_eq_ok hsplit).2]; rfl
      subst hbody
      rw [hplain]
      exact .last (List.append_assoc before [run] ts).symm (.plain _)
  rest := by
    intro stage t ts digit rest h hcuts hrun hsplit
    cases h with
    | last hbody h => exact .cut hbody h hcuts hrun hsplit
    | cut => cases hcuts
  plain := by
    intro stage ts h _
    cases h with
    | last hbody h => exact .last hbody (.plain _)
    | cut hbody h hcuts hrun hsplit => exact .cut hbody h hcuts hrun hsplit

theorem Remains.spot {t : Token} (h : Remains body stage (t :: ts)) : Spot body t.pos := by
  cases h with
  | last hbody _ =>
    subst hbody
    exact .token (List.mem_append_right _ List.mem_cons_self)
  | cut hbody h hcuts hrun hsplit =>
    rw [pos_of_splitDigit hsplit]
    exact .inner hbody h hcuts hrun

/-- Reasons to stop while some tokens of a source are read: an error at a place in them, or a
breakdown. -/
def StopsIn (source : String) (tokens : List Token) : Stop → Prop
  | .failure (.parse e) => Spot tokens e.pos ∧
    e.source = if source.isEmpty then none else some source
  | .failure _ => False
  | .fault _ => True

theorem blames_remains (c : Context) (body : List Token) : Blames c (Remains body)
    (fun t => Spot (body ++ [c.done]) t.pos) (StopsIn c.source (body ++ [c.done])) where
  own _ _ _ h := ⟨h, rfl⟩
  fault _ _ _ _ _ _ _ _ := trivial
  done := .token (List.mem_append_right _ List.mem_cons_self)
  seen _ _ _ h := h.spot.concat c.done

/-- An expression of some tokens is read, or there is an error at one of them or inside a run of
digits. -/
theorem meets_complete (hc : c.done.kind = .done) (body : List Token) (n power bars : Nat)
    (bare : Bool) : Meets (StopsIn c.source (body ++ [c.done])) (fun _ => True)
      ((level c n).expression power bars bare body >>= Expr.complete c) := by
  have hE := blames_remains c body
  have hlevel := meets_level (closed_remains body) hE hc (fun _ h => ⟨h, rfl⟩) n
    (.expression power bars bare body) (.last (List.nil_append body).symm (.plain []))
  refine hlevel.bind fun p hp => ?_
  obtain ⟨e, ts⟩ := p
  cases ts with
  | nil => trivial
  | cons t ts => exact ⟨hE.seen .plain t ts hp, rfl⟩

end Parser

namespace Expr

open Token (Breaks Spot endToken tokenize)

variable {source : String} {limit : Int} {f : Failure} {p : Nat}

/-- An error at an offset of a source: of the lexer at malformed text, or of the parser at a place
in its tokens. -/
inductive PointsAt (source : String) (p : Nat) : Failure → Prop
  | lexical {e : LexicalError} (h : Breaks source e p) : PointsAt source p (.lexical e)
  | parse {body : List Token} (cause : ParseError.Cause)
      (htokens : tokenize source = .ok (body ++ [endToken source.length]))
      (h : Spot (body ++ [endToken source.length]) p) :
      PointsAt source p (.parse ⟨cause, p, if source.isEmpty then none else some source⟩)

theorem exists_offset {body : List Token} {pos : Int} (hbody : Token.Tiles 0 source.toList body)
    (h : Spot (body ++ [endToken source.length]) pos) : ∃ p : Nat, p ≤ source.length ∧ pos = p := by
  have hwithin (t : Token) (ht : t ∈ body) : ∃ i : Nat, i + t.text.length ≤ source.length ∧
      t.pos = i := by
    obtain ⟨hne, i, hi, hslice⟩ := hbody.slice ht
    have hle := Token.add_length_le hne hslice
    rw [String.length_toList] at hle
    exact ⟨i, hle, by rw [hi, Nat.zero_add]⟩
  cases h with
  | @token t ht =>
    rcases List.mem_append.mp ht with ht | ht
    · obtain ⟨i, hle, hi⟩ := hwithin t ht
      exact ⟨i, Nat.le_trans (Nat.le_add_right _ _) hle, hi⟩
    · cases List.mem_singleton.mp ht
      exact ⟨source.length, Nat.le_refl _, rfl⟩
  | @inner before after run stage htokens _ _ hrun =>
    have hmem : run ∈ body ++ [endToken source.length] := by
      rw [htokens]
      exact List.mem_append_right _ List.mem_cons_self
    rcases List.mem_append.mp hmem with hmem | hmem
    · obtain ⟨i, hle, hi⟩ := hwithin run hmem
      have hlong : run.text.length > 1 := by
        rw [Token.isDigitRun] at hrun
        simp_all
      exact ⟨i + 1, by omega, by rw [hi]; rfl⟩
    · cases List.mem_singleton.mp hmem
      cases hrun

theorem toList_pushn (s : String) (c : Char) (n : Nat) :
    (s.pushn c n).toList = s.toList ++ List.replicate n c := by
  rw [String.pushn]
  induction n with
  | zero => exact (List.append_nil _).symm
  | succ n ih => rw [Nat.repeat, String.toList_push, ih, List.append_assoc, List.replicate_succ']

theorem render_of_le (h : p ≤ source.length) : (⟨source, p⟩ : Place).render.toList =
    ' ' :: ' ' :: source.toList ++ '\n' :: ' ' :: ' ' :: List.replicate p ' ' ++ ['^'] := by
  have hoffset : (⟨source, p⟩ : Place).offset = p := Nat.min_eq_left h
  rw [Place.render, hoffset]
  simp [toString, String.toList_append, toList_pushn]

/-- Reading the tokens of a source stops at a place in them, or breaks down. -/
theorem stopsIn_of_parse {stop : Stop} {body : List Token} (hbody : ∀ t ∈ body, t.kind ≠ .done)
    (htokens : tokenize source = .ok (body ++ [endToken source.length]))
    (h : parse source limit = .error stop) :
    Parser.StopsIn source (body ++ [endToken source.length]) stop := by
  have hdone : (endToken source.length).kind = .done := rfl
  rw [parse_eq_ofTokens htokens, ofTokens_concat hbody hdone] at h
  by_cases hnil : body = []
  · rw [if_pos hnil] at h
    cases h
    exact ⟨.token (List.mem_append_right _ List.mem_cons_self), rfl⟩
  · rw [if_neg hnil] at h
    have hmeets := Parser.meets_complete (c := ⟨source, limit, endToken source.length⟩) hdone body
      limit.toNat 0 0 false
    rw [h] at hmeets
    exact hmeets

/-- An error of a source is at an offset in it: at malformed text, with the tokens of the source up
to there before it, or at one of its tokens, or inside a run of digits behind `^` or behind `\log_`.
Its caret stands under that place. -/
theorem parse_pointsAt (source : String) (limit : Int) (f : Failure)
    (h : parse source limit = .error (.failure f)) :
    ∃ p : Nat, p ≤ source.length ∧ PointsAt source p f ∧
      f.place? = (if source.isEmpty then none else some ⟨source, p⟩) ∧
      (⟨source, p⟩ : Place).render.toList =
        ' ' :: ' ' :: source.toList ++ '\n' :: ' ' :: ' ' :: List.replicate p ' ' ++ ['^'] := by
  cases htokens : tokenize source with
  | error stop =>
    rw [parse_eq_error htokens] at h
    cases h
    obtain ⟨e, p, rfl, hbreaks⟩ := Token.tokenize_breaks htokens
    have hle := hbreaks.le_length
    have hp : p ≤ source.length := Nat.le_trans (Nat.le_add_right _ _) hle
    have hsource : source ≠ "" := by
      rintro rfl
      exact hbreaks.text_ne
        (String.length_eq_zero_iff.mp (Nat.eq_zero_of_add_eq_zero_left (Nat.le_zero.mp hle)))
    refine ⟨p, hp, .lexical hbreaks, ?_, render_of_le hp⟩
    rw [String.isEmpty_eq_false_iff.mpr hsource, if_neg Bool.false_ne_true, Failure.place?,
      hbreaks.place]
  | ok tokens =>
    obtain ⟨body, rfl, hbody, htiles⟩ := Token.tokenize_tiles htokens
    have hstops := stopsIn_of_parse hbody htokens h
    cases f with
    | lexical e => exact hstops.elim
    | eval e => exact hstops.elim
    | parse e =>
      obtain ⟨cause, pos, shown⟩ := e
      obtain ⟨hspot, hshown⟩ := hstops
      obtain ⟨p, hp, hpos⟩ := exists_offset htiles hspot
      dsimp only at hspot hshown hpos
      subst hpos hshown
      refine ⟨p, hp, .parse cause htokens hspot, ?_, render_of_le hp⟩
      rw [Failure.place?]
      split <;> rfl

/-- One digit of the run is the base of the logarithm, and the error at what is left of it is inside
the run. -/
theorem cutBase_pointsAt :
    parse "\\log_23" 1 = .error (.failure (.parse ⟨.nestedTooDeep 1, 6, some "\\log_23"⟩)) ∧
      PointsAt "\\log_23" 6 (.parse ⟨.nestedTooDeep 1, 6, some "\\log_23"⟩) := by
  have hparse : parse "\\log_23" 1 =
      .error (.failure (.parse ⟨.nestedTooDeep 1, 6, some "\\log_23"⟩)) := rfl
  obtain ⟨p, -, hpoints, hplace, -⟩ := parse_pointsAt _ _ _ hparse
  have hp : (6 : Int) = p := congrArg Place.pos (Option.some.inj hplace)
  obtain rfl : p = 6 := by omega
  exact ⟨hparse, hpoints⟩

/-- Two points are no numeral, and the error shows them before the backslash that follows. -/
example : parse "x .. \\" 1 = .error (.failure (.lexical ⟨.numeric, "..", ⟨"x .. \\", 2⟩⟩)) := rfl

end Expr

end UnitSheet
