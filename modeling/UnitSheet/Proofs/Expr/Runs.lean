import UnitSheet.Proofs.Expr.Following

namespace UnitSheet

namespace Token

/-- The tokens with each run of digits cut, into its first digit and the rest, of which one digit
stands alone. -/
def cutRuns : Stage → List Token → List Token
  | _, [] => []
  | stage, t :: ts =>
    match stage.cuts && t.isDigitRun, t.splitDigit with
    | true, .ok (digit, rest) =>
      { kind := .number, text := digit.text, pos := t.pos, value := digit.value } :: rest ::
        cutRuns .plain ts
    | _, _ => t :: cutRuns (stage.next t.kind) ts

section
variable {stage : Stage} {t : Token} {ts : List Token}

def digitToken (t : Token) (digit : Literal) : Token :=
  { kind := .number, text := digit.text, pos := t.pos, value := digit.value }

theorem cutRuns_cons (h : (stage.cuts && t.isDigitRun) = false) :
    cutRuns stage (t :: ts) = t :: cutRuns (stage.next t.kind) ts := by
  rw [cutRuns, h]

theorem cutRuns_plain_cons : cutRuns .plain (t :: ts) = t :: cutRuns (Stage.plain.next t.kind) ts :=
  cutRuns_cons rfl

theorem cutRuns_split {digit : Literal} {rest : Token} (hcuts : stage.cuts = true)
    (hrun : t.isDigitRun = true) (hsplit : t.splitDigit = .ok (digit, rest)) :
    cutRuns stage (t :: ts) = digitToken t digit :: rest :: cutRuns .plain ts := by
  rw [cutRuns, hcuts, hrun, hsplit]
  rfl

theorem cutRuns_fault {f : Fault} (hsplit : t.splitDigit = .error f) :
    cutRuns stage (t :: ts) = t :: cutRuns (stage.next t.kind) ts := by
  rw [cutRuns, hsplit]
  cases stage.cuts && t.isDigitRun <;> rfl

theorem cutRuns_concat {done : Token} (h : done.isDigitRun = false) :
    cutRuns stage (ts ++ [done]) = cutRuns stage ts ++ [done] := by
  induction ts generalizing stage with
  | nil => simp [cutRuns, h]
  | cons t ts ih =>
    rw [List.cons_append, cutRuns, cutRuns]
    split
    · rw [ih, List.cons_append, List.cons_append]
    · rw [ih, List.cons_append]

theorem kind_cutRuns (stage : Stage) (P : Kind → Prop) (hnumber : P .number)
    (h : ∀ t ∈ ts, P t.kind) : ∀ t ∈ cutRuns stage ts, P t.kind := by
  induction ts generalizing stage with
  | nil => exact h
  | cons t ts ih =>
    have hmore := fun stage => ih stage fun u hu => h u (List.mem_cons_of_mem t hu)
    rw [cutRuns]
    split
    · next digit rest _ hsplit =>
      have hrest := (Parser.splitDigit_eq_ok hsplit).2
      rw [List.forall_mem_cons, List.forall_mem_cons, hrest]
      exact ⟨hnumber, hnumber, hmore .plain⟩
    · rw [List.forall_mem_cons]
      exact ⟨h t List.mem_cons_self, hmore _⟩

theorem cutRuns_eq_nil : cutRuns stage ts = [] ↔ ts = [] := by
  cases ts with
  | nil => exact Iff.rfl
  | cons t ts =>
    rw [cutRuns]
    split <;> simp

theorem isDigitRun_digitToken {digit : Literal} {rest : Token}
    (h : t.splitDigit = .ok (digit, rest)) : (digitToken t digit).isDigitRun = false := by
  obtain ⟨v, -, h⟩ := Parser.exists_of_bind h
  obtain ⟨w, -, h⟩ := Parser.exists_of_bind h
  cases h
  rw [isDigitRun]
  cases t.text.toList <;> simp [digitToken]

end

end Token

namespace Parser

variable {c : Context} {ts : List Token} {t : Token}

theorem cutRuns_passes {stage : Token.Stage} (h : stage.Passes t) :
    Token.cutRuns stage (t :: ts) = Token.cutRuns .plain (t :: ts) := by
  rw [Token.cutRuns_cons h.1, Token.cutRuns_plain_cons, h.2]

theorem cutRuns_log (h : (current c ts).kind ≠ .subscript) :
    Token.cutRuns .log ts = Token.cutRuns .plain ts := by
  cases ts with
  | nil => rfl
  | cons t ts => exact cutRuns_passes (Token.passes_log h)

theorem cutRuns_power (hsign : (current c ts).sign? = none)
    (hrun : (current c ts).isDigitRun = false) :
    Token.cutRuns .power ts = Token.cutRuns .plain ts := by
  cases ts with
  | nil => rfl
  | cons t ts => exact cutRuns_passes (Token.passes_power hsign hrun)

end Parser

end UnitSheet
