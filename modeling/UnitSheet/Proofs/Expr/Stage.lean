import UnitSheet.Expr.Parser

namespace UnitSheet

namespace Token

/-- What the tokens so far say about a run of digits that comes next: behind `^` and signs, or
behind `\log_`, one digit of it stands alone. -/
inductive Stage
  | plain | power | log | base
deriving DecidableEq

namespace Stage

def next (stage : Stage) : Kind → Stage
  | .operator (.arithmetic .pow) => power
  | .operator (.arithmetic .add) | .operator (.arithmetic .sub) =>
    if stage = power then power else plain
  | .builtin .log => log
  | .subscript => if stage = log then base else plain
  | _ => plain

def cuts : Stage → Bool
  | power | base => true
  | plain | log => false

/-- The stage has no effect on the token: neither is it cut nor does it lead to another stage than
otherwise. -/
def Passes (stage : Stage) (t : Token) : Prop :=
  (stage.cuts && t.isDigitRun) = false ∧ stage.next t.kind = plain.next t.kind

end Stage

variable {stage : Stage} {t : Token}

theorem kind_of_isDigitRun (h : t.isDigitRun = true) : t.kind = .number := by
  rw [isDigitRun] at h
  simp_all

theorem next_sign {op : UnaryOp} (h : t.sign? = some op) :
    stage.next t.kind = if stage = .power then .power else .plain := by
  rw [sign?] at h
  split at h
  · next hkind => rw [hkind, Stage.next]
  · next hkind => rw [hkind, Stage.next]
  · cases h

theorem isDigitRun_sign {op : UnaryOp} (h : t.sign? = some op) : t.isDigitRun = false := by
  rw [sign?] at h
  rw [isDigitRun]
  split at h <;> simp_all

theorem next_operator {op : BinaryOp} (h : t.kind = .operator op)
    (hpow : op = .arithmetic .pow → False) : Stage.plain.next t.kind = .plain := by
  rw [h]
  rcases op with (_ | _ | _ | _ | _) | _ <;> simp_all [Stage.next]

theorem next_builtin {f : Builtin} (hlog : f = .log → False) :
    Stage.plain.next (.builtin f) = .plain := by
  cases f <;> simp_all [Stage.next]

/-- Behind a logarithm only a subscript has an effect on the runs of digits that follow. -/
theorem passes_log (h : t.kind ≠ .subscript) : Stage.log.Passes t := by
  refine ⟨rfl, ?_⟩
  unfold Stage.next
  split <;> simp_all

/-- A sign keeps the stage of a power, and a run is cut in it: any other token has no effect
there. -/
theorem passes_power (hsign : t.sign? = none) (hrun : t.isDigitRun = false) :
    Stage.power.Passes t := by
  refine ⟨by rw [hrun, Bool.and_false], ?_⟩
  unfold Stage.next
  split <;> simp_all [sign?]

end Token

namespace Parser

variable {c : Context} {ts : List Token} {t : Token}

theorem current_cons : current c (t :: ts) = t :=
  rfl

theorem drop_cons : (t :: ts).drop 1 = ts :=
  rfl

theorem current_nil (hc : c.done.kind = .done) (kind : Token.Kind) (h : kind ≠ .done) :
    (current c []).kind ≠ kind := by
  rw [current, List.headD_nil, hc]
  exact h.symm

theorem exists_of_current (hc : c.done.kind = .done) {kind : Token.Kind}
    (h : (current c ts).kind = kind)
    (hkind : kind ≠ .done) : ∃ t us, ts = t :: us ∧ t.kind = kind := by
  cases ts with
  | nil => exact absurd h (current_nil hc kind hkind)
  | cons t us => exact ⟨t, us, rfl, h⟩

theorem kind_of_parentheses {b : Bracket} (h : parentheses? c ts = some b) :
    (current c ts).kind = .opening b := by
  rw [parentheses?] at h
  split at h
  · next ht =>
    cases h
    exact ht
  · next ht =>
    cases h
    exact ht
  · cases h

theorem sign_spanSigns (hc : c.done.kind = .done) (ts : List Token) :
    (current c (spanSigns ts).2).sign? = none := by
  induction ts with
  | nil => rw [spanSigns, current, List.headD_nil, Token.sign?, hc]
  | cons t ts ih =>
    rw [spanSigns]
    split
    · exact ih
    · next hsign => exact hsign

end Parser

end UnitSheet
