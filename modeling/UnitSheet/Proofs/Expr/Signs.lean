import UnitSheet.Proofs.Expr.Precedence

namespace UnitSheet

/-- A sign in front of an operand. -/
structure Sign where
  token : Token
  op : UnaryOp
  token_sign : token.sign? = some op

namespace Sign

def tokens (s : Option Sign) : List Token := (s.map (·.token)).toList

def apply (s : Option Sign) (e : Expr) : Expr :=
  match s with
  | none => e
  | some s => .unary s.op e

theorem kind_ne_done (s : Option Sign) : ∀ t ∈ tokens s, t.kind ≠ .done := by
  cases s with
  | none => exact List.forall_mem_nil _
  | some s =>
    intro t ht hkind
    obtain rfl : t = s.token := List.mem_singleton.mp ht
    have hsign := s.token_sign
    rw [Token.sign?, hkind] at hsign
    cases hsign

end Sign

/-- An operand behind `*` or `/`, maybe with a sign of its own. -/
structure Factor where
  op : BinaryOp
  operator : Token
  sign : Option Sign
  operand : Operand
  op_product : op = .arithmetic .mul ∨ op = .arithmetic .div
  operator_kind : operator.kind = .operator op

namespace Expr

def leftDepth : Expr → Nat
  | binary _ left _ => left.leftDepth + 1
  | _ => 0

end Expr

namespace Factor

def operandTokens (f : Factor) : List Token := Sign.tokens f.sign ++ f.operand.tokens

def tokens (f : Factor) : List Token := f.operator :: f.operandTokens

def allTokens (fs : List Factor) : List Token := fs.flatMap tokens

/-- The operand with no more than itself below its sign. -/
def expr (f : Factor) : Expr := Sign.apply f.sign f.operand.expr

/-- Factors behind `left`, of which a signed one has all that follow below its sign. -/
def product (left : Expr) : List Factor → Expr
  | [] => left
  | f :: fs =>
    match f.sign with
    | none => product (.binary f.op left f.operand.expr) fs
    | some s => .binary f.op left (.unary s.op (product f.operand.expr fs))

/-- Factors behind `left`, each with its own sign, grouped to the left. -/
def leftGrouped (left : Expr) (fs : List Factor) : Expr :=
  fs.foldl (fun e f => .binary f.op e f.expr) left

theorem power_op (f : Factor) : f.op.power = 20 := by
  rcases f.op_product with h | h <;> rw [h] <;> rfl

theorem kind_ne_done (f : Factor) : ∀ t ∈ f.tokens, t.kind ≠ .done := by
  intro t ht
  rw [tokens, operandTokens, List.mem_cons, List.mem_append] at ht
  rcases ht with rfl | ht | ht
  · rw [f.operator_kind]
    nofun
  · exact Sign.kind_ne_done f.sign t ht
  · exact f.operand.kind_ne_done t ht

theorem allTokens_cons (f : Factor) (fs : List Factor) :
    allTokens (f :: fs) = f.tokens ++ allTokens fs :=
  List.flatMap_cons

theorem length_operand_lt (f : Factor) (ts : List Token) :
    (f.operand.tokens ++ ts).length < (f.tokens ++ ts).length := by
  rw [tokens, operandTokens, List.cons_append, List.append_assoc, List.length_cons]
  exact Nat.lt_succ_of_le (List.suffix_append _ _).length_le

theorem leftGrouped_cons (left : Expr) (f : Factor) (fs : List Factor) :
    leftGrouped left (f :: fs) = leftGrouped (.binary f.op left f.expr) fs :=
  rfl

theorem leftDepth_leftGrouped (left : Expr) (fs : List Factor) :
    (leftGrouped left fs).leftDepth = left.leftDepth + fs.length := by
  induction fs generalizing left with
  | nil => rfl
  | cons f fs ih =>
    rw [leftGrouped_cons, ih, Expr.leftDepth, List.length_cons]
    omega

/-- The two trees are the same if and only if no sign has factors behind its own. -/
theorem product_eq_leftGrouped_iff (left : Expr) (fs : List Factor) :
    product left fs = leftGrouped left fs ↔ ∀ f ∈ fs.dropLast, f.sign = none := by
  induction fs generalizing left with
  | nil => simp [product, leftGrouped]
  | cons f fs ih =>
    cases hsign : f.sign with
    | none =>
      have hexpr : f.expr = f.operand.expr := by rw [expr, hsign, Sign.apply]
      rw [product, hsign, leftGrouped_cons, hexpr, ih]
      cases fs with
      | nil => simp
      | cons g fs => simp [hsign]
    | some s =>
      cases fs with
      | nil => simp [product, leftGrouped, expr, hsign, Sign.apply]
      | cons g fs =>
        refine iff_of_false (fun h => ?_) fun h => ?_
        · have hdepth := congrArg Expr.leftDepth h
          rw [leftGrouped_cons, leftDepth_leftGrouped, product, hsign] at hdepth
          simp [Expr.leftDepth] at hdepth
        · have hnone := h f (by simp)
          rw [hsign] at hnone
          cases hnone

end Factor

namespace Parser

open Factor (allTokens product)

variable {c : Context} {power bars n fuel : Nat} {bare : Bool} {ts : List Token} {left : Expr}

/-- A sign takes an operand of its own power; the loop goes on behind it. -/
theorem expression_sign (s : Sign) (ts : List Token) :
    (level c (n + 1)).expression power bars bare (s.token :: ts) =
      (level c n).expression 15 bars false ts >>= fun p =>
        operators c (level c n) power bars bare p.2.length (.unary s.op p.1) p.2 := by
  rw [level]
  dsimp only
  rw [expressionAt, signed, current_cons, s.token_sign, drop_cons]
  dsimp only
  cases (level c n).expression 15 bars false ts <;> rfl

theorem parts_factors (fs : List Factor) : Parts (allTokens fs) := by
  cases fs with
  | nil => exact parts_nil
  | cons f fs => simp [Factor.allTokens_cons, Factor.tokens, f.operator_kind]

theorem halts_factors (fs : List Factor) : Halts 21 bars bare (allTokens fs) := by
  cases fs with
  | nil => exact halts_nil
  | cons f fs => simp [Factor.allTokens_cons, Factor.tokens, f.operator_kind, continues, f.power_op]

theorem operators_factor {deeper : Level} (hpower : power ≤ 20) (f : Factor) (ts : List Token) :
    operators c deeper power bars bare (fuel + 1) left (f.tokens ++ ts) =
      deeper.expression 21 bars false (f.operandTokens ++ ts) >>= fun p =>
        operators c deeper power bars bare fuel (.binary f.op left p.1) p.2 := by
  have hstop : ¬ f.op.power < power := by
    rw [f.power_op]
    exact Nat.not_lt.mpr hpower
  rw [Factor.tokens, List.cons_append, operators, f.operator_kind]
  rcases f.op_product with h | h
  · rw [h] at hstop ⊢
    exact if_neg hstop
  · rw [h] at hstop ⊢
    exact if_neg hstop

theorem operators_product (hc : c.done.kind = .done) (hpower : power ≤ 20)
    (hd : ∀ m < n, ∀ (first : Operand) fs, (first.tokens ++ allTokens fs).length ≤ m →
      (level c m).expression 15 bars false (first.tokens ++ allTokens fs) = .ok
      (product first.expr fs, []))
    (fs : List Factor) (hn : (allTokens fs).length ≤ n) (hfuel : (allTokens fs).length ≤ fuel)
    (left : Expr) :
    operators c (level c n) power bars bare fuel left (allTokens fs) = .ok
      (product left fs, []) := by
  induction fs generalizing left fuel with
  | nil => exact operators_halts halts_nil fuel left
  | cons f fs ih =>
    rw [Factor.allTokens_cons] at hn hfuel ⊢
    have hlength := f.length_operand_lt (allTokens fs)
    obtain ⟨m, rfl⟩ := Nat.exists_eq_add_one_of_ne_zero
      (Nat.ne_zero_of_lt (Nat.lt_of_lt_of_le hlength hn))
    obtain ⟨fuel, rfl⟩ :=
      Nat.exists_eq_add_one_of_ne_zero (Nat.ne_zero_of_lt (Nat.lt_of_lt_of_le hlength hfuel))
    have hm := Nat.le_of_lt_succ (Nat.lt_of_lt_of_le hlength hn)
    have hmore := f.operand.length_lt (allTokens fs)
    rw [operators_factor hpower, Factor.operandTokens, product]
    cases f.sign with
    | none =>
      have hread : (level c (m + 1)).expression 21 bars false (f.operand.tokens ++ allTokens fs) =
          .ok (f.operand.expr, allTokens fs) :=
        expression_operand hc (parts_factors fs) (halts_factors fs) f.operand
      rw [Sign.tokens, Option.map_none, Option.toList_none, List.nil_append, hread]
      exact ih (by omega) (by omega) _
    | some s =>
      rw [Sign.tokens, Option.map_some, Option.toList_some, List.singleton_append, List.cons_append,
        expression_sign, hd m (Nat.lt_succ_self m) f.operand fs hm]
      dsimp only [bind, Except.bind]
      rw [operators_halts halts_nil]
      exact operators_halts halts_nil _ _

/-- Reading at a power of products or less takes all factors; the induction is on the levels, since
a sign opens one for what is below it. -/
theorem expression_product (hc : c.done.kind = .done) (hpower : power ≤ 20) (first : Operand)
    (fs : List Factor) (h : (first.tokens ++ allTokens fs).length ≤ n) :
    (level c n).expression power bars bare (first.tokens ++ allTokens fs) = .ok
    (product first.expr fs, []) := by
  induction n using Nat.strongRecOn generalizing power bare first fs with
  | ind n ih =>
    have hlength := first.length_lt (allTokens fs)
    obtain ⟨n, rfl⟩ := Nat.exists_eq_add_one_of_ne_zero
      (Nat.ne_zero_of_lt (Nat.lt_of_lt_of_le hlength h))
    have hn : (allTokens fs).length ≤ n := Nat.le_of_lt_succ (Nat.lt_of_lt_of_le hlength h)
    rw [level]
    dsimp only
    rw [expressionAt, signed_operand hc (parts_factors fs) first]
    refine operators_product hc hpower ?_ fs hn (Nat.le_refl _) first.expr
    intro m hm first fs hfs
    exact ih m (Nat.lt_succ_of_lt hm) (by decide) first fs hfs

end Parser

namespace Factor

theorem ofTokens_product (first : Operand) (fs : List Factor) {done : Token}
    (hdone : done.kind = .done)
    (source : String) {limit : Int} (hlimit : (first.tokens ++ allTokens fs).length ≤ limit) :
    Expr.ofTokens (first.tokens ++ allTokens fs ++ [done]) source limit = .ok
      (product first.expr fs) := by
  have hbody : ∀ t ∈ first.tokens ++ allTokens fs, t.kind ≠ .done := by
    intro t ht
    rcases List.mem_append.mp ht with ht | ht
    · exact first.kind_ne_done t ht
    · obtain ⟨f, -, ht⟩ := List.mem_flatMap.mp ht
      exact f.kind_ne_done t ht
  rw [Expr.ofTokens_eq_ok_iff hbody hdone]
  exact Parser.expression_product hdone (Nat.zero_le _) first fs (by omega)

/-- A chain of factors is read, with levels for its tokens, to the tree in which each sign takes all
that is behind it. This tree groups all factors to the left just if only the last one has a sign, if
any. -/
theorem reads_product (first : Operand) (fs : List Factor) (done : Token)
    (hdone : done.kind = .done)
    (source : String) (limit : Int) (hlimit : (first.tokens ++ allTokens fs).length ≤ limit) :
    Expr.ofTokens (first.tokens ++ allTokens fs ++ [done]) source limit = .ok
      (product first.expr fs) ∧
      (product first.expr fs = leftGrouped first.expr fs ↔ ∀ f ∈ fs.dropLast, f.sign = none) :=
  ⟨ofTokens_product first fs hdone source hlimit, product_eq_leftGrouped_iff first.expr fs⟩

def quotientFactors : List Factor :=
  [{ op := .arithmetic .div,
     operator := { kind := .operator (.arithmetic .div), text := "/", pos := 2 },
     sign := some ⟨{ kind := .operator (.arithmetic .sub), text := "-", pos := 4 }, .neg, rfl⟩,
     operand := .named "b" 5, op_product := .inr rfl, operator_kind := rfl },
   { op := .arithmetic .mul,
     operator := { kind := .operator (.arithmetic .mul), text := "*", pos := 7 },
     sign := none, operand := .named "c" 9, op_product := .inl rfl, operator_kind := rfl }]

def quotientFirst : Operand := .named "a" 0

theorem quotient_reads_product :
    Token.tokenize "a / -b * c" = .ok
      (quotientFirst.tokens ++ allTokens quotientFactors ++ [Token.endToken 10]) ∧
    Expr.ofTokens (quotientFirst.tokens ++ allTokens quotientFactors ++ [Token.endToken 10])
      "a / -b * c" 6 = .ok (product quotientFirst.expr quotientFactors) ∧
    (product quotientFirst.expr quotientFactors = leftGrouped quotientFirst.expr quotientFactors ↔
      ∀ f ∈ quotientFactors.dropLast, f.sign = none) :=
  ⟨rfl, reads_product quotientFirst quotientFactors (Token.endToken 10) rfl _ 6 (by decide)⟩

/-- With however many levels, `a / -b * c` is not `(a / (-b)) * c`, but `a / (-(b * c))`. -/
theorem quotient_not_leftGrouped :
    Token.tokenize "a / -b * c" = .ok
      (quotientFirst.tokens ++ allTokens quotientFactors ++ [Token.endToken 10]) ∧
    ¬ ∃ depth : Int, ∀ limit, depth ≤ limit →
      Expr.ofTokens (quotientFirst.tokens ++ allTokens quotientFactors ++ [Token.endToken 10])
        "a / -b * c" limit = .ok (leftGrouped quotientFirst.expr quotientFactors) := by
  refine ⟨rfl, fun ⟨depth, h⟩ => ?_⟩
  have hdone : (Token.endToken 10).kind = .done := rfl
  have hread := ofTokens_product quotientFirst quotientFactors hdone "a / -b * c"
    (Int.le_max_right depth 6)
  rw [h _ (Int.le_max_left depth 6)] at hread
  have hnone := (product_eq_leftGrouped_iff _ _).mp (Except.ok.inj hread).symm
  exact Option.some_ne_none _ (hnone _ List.mem_cons_self)

end Factor

end UnitSheet
