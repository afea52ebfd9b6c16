import UnitSheet.Proofs.Decimal.Written
import UnitSheet.Proofs.Expr.Delimited
import UnitSheet.Proofs.Expr.Signs

namespace UnitSheet

namespace Expr

/-- The exact value of an expression of numerals, minus signs, products and whole powers of ten. -/
def rat? : Expr → Option ℚ
  | literal l => Decimal.rat? l.text.toList
  | unary .neg e => e.rat?.map fun r => -r
  | binary (.arithmetic .mul) left right => do return (← left.rat?) * (← right.rat?)
  | binary (.arithmetic .pow) base exponent => do
    let b ← base.rat?
    let e ← exponent.rat?
    if b = 10 ∧ e.den = 1 then some (10 ^ e.num) else none
  | _ => none

end Expr

namespace Parser

variable {c : Context} {n bars power : Nat} {bare : Bool} {t u v : Token} {ts us : List Token}
variable {e : Expr}

theorem signed_numeral {deeper : Level} (hc : c.done.kind = .done) (ht : t.kind = .number)
    (hts : Parts ts) : signed c deeper bars (t :: ts) = .ok (.literal t.literal, ts) := by
  have hleaf : (⟨t, [], .inl ht, List.forall_mem_nil _⟩ : Operand).expr = .literal t.literal :=
    if_pos ht
  rw [← hleaf]
  exact signed_operand hc hts ⟨t, [], .inl ht, List.forall_mem_nil _⟩

theorem expression_numeral (hc : c.done.kind = .done) (ht : t.kind = .number) (hts : Parts ts)
    (hhalts : Halts power bars bare ts) :
    (level c (n + 1)).expression power bars bare (t :: ts) = .ok (.literal t.literal, ts) := by
  rw [level]
  dsimp only
  rw [expressionAt, signed_numeral hc ht hts]
  exact operators_halts hhalts ts.length _

theorem expression_signed (s : Option Sign)
    (halone : (level c (n + 2)).expression power bars bare ts = .ok (e, us))
    (hbehind : (level c (n + 1)).expression 15 bars false ts = .ok (e, us))
    (hhalts : Halts power bars bare us) :
    (level c (n + 2)).expression power bars bare (Sign.tokens s ++ ts) = .ok
    (Sign.apply s e, us) := by
  cases s with
  | none => exact halone
  | some s =>
    rw [Sign.tokens, Option.map_some, Option.toList_some, List.singleton_append, expression_sign,
      hbehind]
    exact operators_halts hhalts _ _

theorem exponentAt_braced (hc : c.done.kind = .done) (hu : u.kind = .opening .brace)
    (hv : v.kind = .closing .brace) (h : (level c n).expression 0 0 false ts = .ok (e, [v])) :
    exponentAt c (level c n) bars (u :: ts) = .ok (e, []) := by
  have hsigns : spanSigns (u :: ts) = ([], u :: ts) := by
    rw [spanSigns, Token.sign?, hu]
  have hrun : u.isDigitRun = false := by
    rw [Token.isDigitRun, hu]
    rfl
  have hprimary : primary c (level c n) bars (u :: ts) = .ok (e, []) := by
    rw [primary, atom, hu]
    dsimp only
    rw [enclosed, h]
    dsimp only [bind, Except.bind]
    rw [expect_cons hv]
    rfl
  rw [exponentAt, exponentOperand, hsigns]
  dsimp only
  rw [current_cons, hrun, if_neg Bool.false_ne_true, hprimary]
  exact if_neg (current_nil hc _ fun h => (by cases h))

theorem expression_operator {op : BinaryOp} (hc : c.done.kind = .done) (ht : t.kind = .number)
    (hu : u.kind = .operator op) (hpower : power ≤ op.power)
    (hright : rightOperand (level c n) op bars ts = .ok (e, [])) :
    (level c (n + 1)).expression power bars bare (t :: u :: ts) =
      .ok (.binary op (.literal t.literal) e, []) := by
  have hparts : Parts (u :: ts) := by simp [hu]
  have hround :
      operators c (level c n) power bars bare (u :: ts).length (.literal t.literal) (u :: ts) =
        if op.power < power then .ok (.literal t.literal, u :: ts)
        else rightOperand (level c n) op bars ts >>= fun p =>
          operators c (level c n) power bars bare ts.length
            (.binary op (.literal t.literal) p.1) p.2 := by
    rw [List.length_cons, operators, hu]
    rcases op with (_ | _ | _ | _ | _) | _ <;> rfl
  rw [level]
  dsimp only
  rw [expressionAt, signed_numeral hc ht hparts]
  dsimp only [bind, Except.bind]
  rw [hround, if_neg (Nat.not_lt.mpr hpower), hright]
  exact operators_halts halts_nil _ _

end Parser

end UnitSheet
