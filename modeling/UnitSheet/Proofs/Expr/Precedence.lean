import UnitSheet.Proofs.Expr.Grouping
import UnitSheet.Proofs.Expr.Progress

namespace UnitSheet

/-- A number or a name with the factorial marks behind it. -/
structure Operand where
  head : Token
  marks : List Token
  head_kind : head.kind = .number ∨ head.kind = .name
  marks_kind : ∀ t ∈ marks, t.kind = .factorial

namespace Operand

def named (text : String) (pos : Int) : Operand :=
  ⟨{ kind := .name, text := text, pos := pos }, [], .inr rfl, List.forall_mem_nil _⟩

def tokens (o : Operand) : List Token := o.head :: o.marks

def leaf (o : Operand) : Expr :=
  if o.head.kind = .number then .literal o.head.literal else .name (Name.ofText o.head.text)

def expr (o : Operand) : Expr := o.marks.foldl (fun e _ => .unary .factorial e) o.leaf

theorem length_lt (o : Operand) (ts : List Token) : ts.length < (o.tokens ++ ts).length := by
  rw [tokens, List.cons_append, List.length_cons, List.length_append]
  exact Nat.lt_succ_of_le (Nat.le_add_left _ _)

theorem kind_ne_done (o : Operand) : ∀ t ∈ o.tokens, t.kind ≠ .done := by
  intro t ht
  rcases List.mem_cons.mp ht with rfl | ht
  · rcases o.head_kind with h | h <;> rw [h] <;> nofun
  · rw [o.marks_kind t ht]
    nofun

theorem root_expr (o : Operand) : o.expr.root? = none := by
  have hfold (marks : List Token) (e : Expr) (he : e.root? = none) :
      (marks.foldl (fun e _ => Expr.unary .factorial e) e).root? = none := by
    induction marks generalizing e with
    | nil => exact he
    | cons t marks ih => exact ih _ rfl
  apply hfold
  rw [leaf]
  split <;> rfl

theorem inorder_expr (o : Operand) : o.expr.inorder = [.inl o.expr] :=
  Expr.inorder_of_root_none o.root_expr

end Operand

/-- What stands between two operands. -/
inductive Joint
  | written (op : BinaryOp) (t : Token) (h : t.kind = .operator op)
  | implied

namespace Joint

def op : Joint → BinaryOp
  | written op _ _ => op
  | implied => .arithmetic .mul

def tokens : Joint → List Token
  | written _ t _ => [t]
  | implied => []

theorem kind_ne_done (j : Joint) : ∀ t ∈ j.tokens, t.kind ≠ .done := by
  cases j with
  | written op t h =>
    intro u hu
    rw [List.mem_singleton.mp hu, h]
    nofun
  | implied => exact List.forall_mem_nil _

end Joint

/-- An operand behind a joint; behind `^` it is no run of digits, of which the exponent would be one
digit only. -/
structure Link where
  joint : Joint
  operand : Operand
  single : joint.op = .arithmetic .pow → operand.head.isDigitRun = false

namespace Link

def op (l : Link) : BinaryOp := l.joint.op

def tokens (l : Link) : List Token := l.joint.tokens ++ l.operand.tokens

def symbols (l : Link) : List (Expr ⊕ BinaryOp) := [.inr l.op, .inl l.operand.expr]

def allTokens (links : List Link) : List Token := links.flatMap tokens

def allSymbols (links : List Link) : List (Expr ⊕ BinaryOp) := links.flatMap symbols

theorem length_operand_le (l : Link) (ts : List Token) :
    (l.operand.tokens ++ ts).length ≤ (l.tokens ++ ts).length := by
  rw [tokens, List.append_assoc]
  exact (List.suffix_append _ _).length_le

theorem allTokens_cons (l : Link) (links : List Link) :
    allTokens (l :: links) = l.tokens ++ allTokens links :=
  List.flatMap_cons

theorem allTokens_append (links links' : List Link) :
    allTokens (links ++ links') = allTokens links ++ allTokens links' :=
  List.flatMap_append

theorem allSymbols_append (links links' : List Link) :
    allSymbols (links ++ links') = allSymbols links ++ allSymbols links' :=
  List.flatMap_append

theorem mem_allSymbols {o : BinaryOp} {links : List Link} (h : .inr o ∈ allSymbols links) :
    ∃ l ∈ links, l.op = o := by
  obtain ⟨l, hl, ho⟩ := List.mem_flatMap.mp h
  refine ⟨l, hl, ?_⟩
  simpa [symbols, eq_comm] using ho

end Link

/-- An operand and further ones behind joints. -/
structure Chain where
  first : Operand
  links : List Link

namespace Chain

def tokens (ch : Chain) : List Token := ch.first.tokens ++ Link.allTokens ch.links

/-- Operands and operators in their order, a product that is not written among them. -/
def symbols (ch : Chain) : List (Expr ⊕ BinaryOp) := .inl ch.first.expr :: Link.allSymbols ch.links

theorem kind_ne_done (ch : Chain) : ∀ t ∈ ch.tokens, t.kind ≠ .done := by
  intro t ht
  rcases List.mem_append.mp ht with ht | ht
  · exact ch.first.kind_ne_done t ht
  · obtain ⟨l, -, ht⟩ := List.mem_flatMap.mp ht
    rcases List.mem_append.mp ht with ht | ht
    · exact l.joint.kind_ne_done t ht
    · exact l.operand.kind_ne_done t ht

end Chain

namespace BinaryOp

variable {op o : BinaryOp} {power : Nat}

theorem power_le_iff : op.power ≤ o.power ↔ op.rank ≤ o.rank := by
  rcases op with (_ | _ | _ | _ | _) | _ <;> rcases o with (_ | _ | _ | _ | _) | _ <;> simp [power,
    rank]

theorem power_lt_iff : op.power < o.power ↔ op.rank < o.rank := by
  rw [← Nat.not_le, power_le_iff, Nat.not_le]

theorem HoldsRight.rank_le (h : op.HoldsRight o) : op.rank ≤ o.rank := by
  rcases h with h | h
  · exact Nat.le_of_lt h
  · exact Nat.le_of_eq h.1

end BinaryOp

namespace Parser

variable {c : Context} {deeper : Level} {bars power n : Nat} {bare : Bool} {ts : List Token}

/-- The tokens cannot go on with an operand that ends in front of them. -/
def Parts (ts : List Token) : Prop := ∀ t ∈ ts.head?, t.kind ≠ .factorial ∧ t.kind ≠ .opening .paren

/-- Whether the loop of operators goes on at a token. -/
def continues (power bars : Nat) (bare : Bool) : Token.Kind → Bool
  | .operator op => power ≤ op.power
  | .equal => power ≤ 2
  | kind => kind.startsOperand bars && power ≤ 20 && !(bare && kind.isBuiltin)

/-- The loop of operators stops in front of the tokens. -/
def Halts (power bars : Nat) (bare : Bool) (ts : List Token) : Prop :=
  ∀ t ∈ ts.head?, continues power bars bare t.kind = false

@[simp]
theorem parts_cons {t : Token} :
    Parts (t :: ts) ↔ t.kind ≠ .factorial ∧ t.kind ≠ .opening .paren := by
  simp [Parts]

@[simp]
theorem halts_cons {t : Token} :
    Halts power bars bare (t :: ts) ↔ continues power bars bare t.kind = false := by
  simp [Halts]

theorem parts_nil : Parts [] :=
  fun t ht => (by cases ht)

theorem halts_nil : Halts power bars bare [] :=
  fun t ht => (by cases ht)

/-- What may stand behind a chain whose right operands are read with the power `least` or more. -/
structure Borders (least bars : Nat) (tail : List Token) : Prop where
  parts : Parts tail
  halts : Halts least bars false tail
  least_le : least ≤ 31

theorem Halts.mono {power' : Nat} (h : Halts power bars false ts) (hpower : power ≤ power') :
    Halts power' bars bare ts := by
  intro t ht
  have hkind := h t ht
  cases hk : t.kind <;> simp_all [continues, Token.Kind.startsOperand] <;> omega

theorem operators_halts (h : Halts power bars bare ts) (fuel : Nat) (left : Expr) :
    operators c deeper power bars bare fuel left ts = .ok (left, ts) := by
  cases fuel with
  | zero => rfl
  | succ fuel =>
    cases ts with
    | nil => rfl
    | cons t ts =>
      have hkind := halts_cons.mp h
      rw [operators]
      split
      · next hpow =>
        rw [hpow] at hkind
        exact if_pos (Nat.lt_of_not_le (of_decide_eq_false hkind))
      · next hop =>
        rw [hop] at hkind
        exact if_pos (Nat.lt_of_not_le (of_decide_eq_false hkind))
      · next hequal =>
        rw [hequal] at hkind
        exact if_pos (Nat.lt_of_not_le (of_decide_eq_false hkind))
      · next hpow hop hequal =>
        unfold continues at hkind
        split at hkind
        · exact absurd ‹_› (hop _)
        · exact absurd ‹_› hequal
        · exact if_neg (Bool.eq_false_iff.mp hkind)

theorem Borders.kind_ne_pow {least : Nat} (h : Borders least bars ts) (hc : c.done.kind = .done) :
    (current c ts).kind ≠ .operator (.arithmetic .pow) := by
  cases ts with
  | nil => exact current_nil hc _ (by nofun)
  | cons t ts =>
    intro hpow
    have hkind := halts_cons.mp h.halts
    rw [current_cons] at hpow
    rw [hpow] at hkind
    exact of_decide_eq_false hkind h.least_le

theorem borders_nil {least : Nat} (h : least ≤ 31) : Borders least bars [] :=
  ⟨parts_nil, halts_nil, h⟩

theorem parts_allTokens (hts : Parts ts) (links : List Link) :
    Parts (Link.allTokens links ++ ts) := by
  cases links with
  | nil => exact hts
  | cons l links =>
    rw [Link.allTokens_cons, Link.tokens]
    obtain ⟨joint, operand, single⟩ := l
    cases joint with
    | written op t h => simp [Joint.tokens, h]
    | implied => rcases operand.head_kind with h | h <;> simp [Joint.tokens, Operand.tokens, h]

theorem factorials_marks (hts : Parts ts) (marks : List Token)
    (h : ∀ t ∈ marks, t.kind = .factorial) (e : Expr) :
    factorials e (marks ++ ts) = (marks.foldl (fun e _ => .unary .factorial e) e, ts) := by
  induction marks generalizing e with
  | nil =>
    cases ts with
    | nil => rfl
    | cons t ts => exact if_neg (parts_cons.mp hts).1
  | cons t marks ih =>
    rw [List.cons_append, factorials, if_pos (h t List.mem_cons_self)]
    exact ih (fun u hu => h u (List.mem_cons_of_mem t hu)) _

theorem primary_operand (hc : c.done.kind = .done) (hts : Parts ts) (o : Operand) :
    primary c deeper bars (o.tokens ++ ts) = .ok (o.expr, ts) := by
  have hatom : atom c deeper bars (o.tokens ++ ts) = .ok (o.leaf, o.marks ++ ts) := by
    rw [Operand.tokens, List.cons_append, atom, Operand.leaf]
    rcases o.head_kind with h | h
    · rw [h]
      rfl
    · have hparen : (current c (o.marks ++ ts)).kind ≠ .opening .paren := by
        cases hmarks : o.marks with
        | nil =>
          cases ts with
          | nil => simp [current, hc]
          | cons t ts => exact (parts_cons.mp hts).2
        | cons t marks =>
          have ht := o.marks_kind t (by simp [hmarks])
          simp [current, ht]
      rw [h]
      exact if_neg hparen
  rw [primary, hatom]
  exact congrArg Except.ok (factorials_marks hts o.marks o.marks_kind o.leaf)

theorem sign?_operand (o : Operand) : o.head.sign? = none := by
  rcases o.head_kind with h | h <;> rw [Token.sign?, h]

theorem signed_operand (hc : c.done.kind = .done) (hts : Parts ts) (o : Operand) :
    signed c deeper bars (o.tokens ++ ts) = .ok (o.expr, ts) := by
  have hsign : (current c (o.tokens ++ ts)).sign? = none := sign?_operand o
  rw [signed, hsign]
  exact primary_operand hc hts o

/-- An operand is read in front of whatever stops the loop. -/
theorem expression_operand (hc : c.done.kind = .done) (hts : Parts ts)
    (hhalts : Halts power bars bare ts)
    (o : Operand) : (level c (n + 1)).expression power bars bare (o.tokens ++ ts) =
    .ok (o.expr, ts) := by
  rw [level]
  dsimp only
  rw [expressionAt, signed_operand hc hts o]
  exact operators_halts hhalts ts.length o.expr

theorem exponentOperand_operand (hc : c.done.kind = .done) (hts : Parts ts) {o : Operand}
    (ho : o.head.isDigitRun = false) :
    exponentOperand c deeper bars (o.tokens ++ ts) = .ok (o.expr, ts) := by
  have hspan : spanSigns (o.tokens ++ ts) = ([], o.tokens ++ ts) := by
    rw [Operand.tokens, List.cons_append, spanSigns, sign?_operand o]
  have hrun : (current c (o.tokens ++ ts)).isDigitRun = false := ho
  rw [exponentOperand, hspan]
  dsimp only
  rw [hrun, if_neg Bool.false_ne_true, primary_operand hc hts o]
  rfl

def rightOperand (deeper : Level) (op : BinaryOp) (bars : Nat) : Reader Expr :=
  if op = .arithmetic .pow then deeper.exponent bars
  else deeper.expression (op.power + 1) bars false

theorem operators_link (fuel : Nat) (left : Expr) (l : Link) (ts : List Token) :
    operators c deeper power bars bare (fuel + 1) left (l.tokens ++ ts) =
      if l.op.power < power then .ok (left, l.tokens ++ ts)
      else rightOperand deeper l.op bars (l.operand.tokens ++ ts) >>= fun p =>
        operators c deeper power bars bare fuel (.binary l.op left p.1) p.2 := by
  obtain ⟨joint, operand, single⟩ := l
  cases joint with
  | written op t h =>
    rw [Link.tokens, List.append_assoc, Joint.tokens, List.singleton_append, operators, h]
    cases op with
    | comparison => rfl
    | arithmetic op => cases op <;> rfl
  | implied =>
    -- an operand without an operator in front of it starts a product
    have hstarts : (operand.head.kind.startsOperand bars && decide (power ≤ 20) &&
        !(bare && operand.head.kind.isBuiltin)) = decide (power ≤ 20) := by
      rcases operand.head_kind with h | h <;> simp [h, Token.Kind.startsOperand,
        Token.Kind.isBuiltin]
    have hround : operators c deeper power bars bare (fuel + 1) left (operand.tokens ++ ts) =
        if decide (power ≤ 20) then
          deeper.expression 21 bars false (operand.tokens ++ ts) >>= fun p =>
            operators c deeper power bars bare fuel (left.mul p.1) p.2
        else .ok (left, operand.tokens ++ ts) := by
      rw [← hstarts, Operand.tokens, List.cons_append, operators]
      rcases operand.head_kind with h | h <;> rw [h]
    rw [Link.tokens, Joint.tokens, List.nil_append, hround]
    by_cases hpower : power ≤ 20
    · rw [if_pos (decide_eq_true hpower)]
      exact (if_neg (Nat.not_lt.mpr hpower)).symm
    · rw [if_neg (by simp [hpower])]
      exact (if_pos (Nat.lt_of_not_le hpower)).symm

/-- A reading joins the first links with what stands before them, `front`, to a grouped tree, and it
leaves the tokens of the other links. -/
def Groups (front : List (Expr ⊕ BinaryOp)) (links : List Link) (Takes Leaves : BinaryOp → Prop)
    (r : Except Stop (Expr × List Token)) : Prop :=
  ∃ e taken left, links = taken ++ left ∧ r = .ok (e, Link.allTokens left) ∧ e.Grouped ∧
    e.inorder = front ++ Link.allSymbols taken ∧ (∀ l ∈ taken, Takes l.op) ∧ ∀ l ∈ left.head?,
      Leaves l.op

structure Level.Groups (deeper : Level) (n : Nat) : Prop where
  expression : ∀ power bars bare (first : Operand) links,
    (first.tokens ++ Link.allTokens links).length ≤ n →
    Parser.Groups first.expr.inorder links (power ≤ BinaryOp.power ·) (BinaryOp.power · < power)
      (deeper.expression power bars bare (first.tokens ++ Link.allTokens links))
  exponent : ∀ bars (first : Operand) links, first.head.isDigitRun = false →
    (first.tokens ++ Link.allTokens links).length ≤ n →
    Parser.Groups first.expr.inorder links (· = .arithmetic .pow) (· ≠ .arithmetic .pow)
      (deeper.exponent bars (first.tokens ++ Link.allTokens links))

/-- The same with other tokens behind the links, which stay there. -/
def GroupsBefore (tail : List Token) (front : List (Expr ⊕ BinaryOp)) (links : List Link)
    (Takes Leaves : BinaryOp → Prop) (r : Except Stop (Expr × List Token)) : Prop :=
  ∃ e taken left, links = taken ++ left ∧ r = .ok (e, Link.allTokens left ++ tail) ∧ e.Grouped ∧
    e.inorder = front ++ Link.allSymbols taken ∧ (∀ l ∈ taken, Takes l.op) ∧ ∀ l ∈ left.head?,
      Leaves l.op

structure Level.GroupsBefore (deeper : Level) (least bars n : Nat) (tail : List Token) : Prop where
  expression : ∀ power bare (first : Operand) links, Halts power bars bare tail →
    (∀ l ∈ links, least ≤ l.op.power + 1) → (first.tokens ++ Link.allTokens links).length ≤ n →
    Parser.GroupsBefore tail first.expr.inorder links (power ≤ BinaryOp.power ·)
      (BinaryOp.power · < power)
      (deeper.expression power bars bare (first.tokens ++ (Link.allTokens links ++ tail)))
  exponent : ∀ (first : Operand) links, first.head.isDigitRun = false →
    (∀ l ∈ links, least ≤ l.op.power + 1) → (first.tokens ++ Link.allTokens links).length ≤ n →
    Parser.GroupsBefore tail first.expr.inorder links (· = .arithmetic .pow) (· ≠ .arithmetic .pow)
      (deeper.exponent bars (first.tokens ++ (Link.allTokens links ++ tail)))

variable {left right : Expr} {links taken : List Link} {l : Link} {fuel least : Nat}
variable {tail : List Token} {Takes Leaves : BinaryOp → Prop}

theorem groups_leave (hleft : left.Grouped) (hlinks : ∀ l ∈ links.head?, Leaves l.op) :
    GroupsBefore tail left.inorder links Takes Leaves (.ok (left, Link.allTokens links ++ tail)) :=
  ⟨left, [], links, rfl, rfl, hleft, (List.append_nil _).symm, by simp, hlinks⟩

theorem grouped_binary {op : BinaryOp} {o : Operand} (hleft : left.Grouped) (hright : right.Grouped)
    (hroot : ∀ i ∈ left.root?, op.HoldsLeft i)
    (horder : right.inorder = o.expr.inorder ++ Link.allSymbols taken)
    (htaken : ∀ l ∈ taken, op.HoldsRight l.op) : (Expr.binary op left right).Grouped := by
  refine ⟨hleft, hright, hroot, ?_⟩
  intro i hi
  have hmem := Expr.root_mem_inorder hi
  rw [horder, o.inorder_expr, List.mem_append, List.mem_singleton] at hmem
  rcases hmem with hmem | hmem
  · cases hmem
  · obtain ⟨l, hl, rfl⟩ := Link.mem_allSymbols hmem
    exact htaken l hl

section
variable (ht : Borders least bars tail) (hd : deeper.GroupsBefore least bars n tail)
include ht hd

/-- The right operand of an operator takes what the operator holds; the operator behind it holds
what has been read then. -/
theorem groups_rightOperand (l : Link) (hl : least ≤ l.op.power + 1)
    (hlinks : ∀ l ∈ links, least ≤ l.op.power + 1)
    (h : (l.operand.tokens ++ Link.allTokens links).length ≤ n) :
    GroupsBefore tail l.operand.expr.inorder links l.op.HoldsRight (fun o => o.HoldsLeft l.op)
      (rightOperand deeper l.op bars (l.operand.tokens ++ (Link.allTokens links ++ tail))) := by
  rw [rightOperand]
  split
  · next hpow =>
    obtain ⟨e, taken, left, hsplit, hr, hgrouped, horder, htaken, hleft⟩ :=
      hd.exponent l.operand links (l.single hpow) hlinks h
    refine ⟨e, taken, left, hsplit, hr, hgrouped, horder, ?_, ?_⟩
    · intro l' hl'
      rw [htaken l' hl', hpow]
      exact .inr ⟨rfl, rfl⟩
    · intro l' hl'
      rw [hpow]
      exact .inl (BinaryOp.rank_lt_of_ne_pow (hleft l' hl'))
  · next hpow =>
    obtain ⟨e, taken, left, hsplit, hr, hgrouped, horder, htaken, hleft⟩ :=
      hd.expression (l.op.power + 1) false l.operand links (ht.halts.mono hl) hlinks h
    refine ⟨e, taken, left, hsplit, hr, hgrouped, horder, ?_, ?_⟩
    · intro l' hl'
      exact .inl (BinaryOp.power_lt_iff.mp (htaken l' hl'))
    · intro l' hl'
      have hle := BinaryOp.power_le_iff.mp (Nat.le_of_lt_succ (hleft l' hl'))
      rcases Nat.lt_or_eq_of_le hle with hlt | heq
      · exact .inl hlt
      · refine .inr ⟨heq, fun hpow' => hpow ?_⟩
        rw [hpow'] at heq
        exact BinaryOp.eq_pow_of_rank heq.symm

/-- The loop joins a grouped tree with the links that bind tight enough, and comes to what is behind
them; `hroot` says that the first of them may take the tree as its left operand. -/
theorem operators_takes (power : Nat) (bare : Bool) (hlinks : ∀ l ∈ links, least ≤ l.op.power + 1)
    (hleft : left.Grouped)
    (hroot : ∀ l ∈ links.head?, ∀ o ∈ left.root?, l.op.HoldsLeft o)
    (hn : (Link.allTokens links).length ≤ n)
    (hfuel : (Link.allTokens links ++ tail).length ≤ fuel) :
    ∃ e taken more fuel', links = taken ++ more ∧ (Link.allTokens more ++ tail).length ≤ fuel' ∧
      operators c deeper power bars bare fuel left (Link.allTokens links ++ tail) =
        operators c deeper power bars bare fuel' e (Link.allTokens more ++ tail) ∧
      e.Grouped ∧ e.inorder = left.inorder ++ Link.allSymbols taken ∧
        (∀ l ∈ taken, power ≤ l.op.power) ∧ ∀ l ∈ more.head?, l.op.power < power := by
  induction fuel generalizing left links with
  | zero =>
    have hnil : links = [] := by
      cases links with
      | nil => rfl
      | cons l links =>
        rw [Link.allTokens_cons, Link.tokens, Operand.tokens] at hfuel
        simp at hfuel
    subst hnil
    exact ⟨left, [], [], 0, rfl, hfuel, rfl, hleft, (List.append_nil _).symm, List.forall_mem_nil _,
      by simp⟩
  | succ fuel ih =>
    by_cases hstop : ∀ l ∈ links.head?, l.op.power < power
    · exact ⟨left, [], links, fuel + 1, rfl, hfuel, rfl, hleft, (List.append_nil _).symm,
        List.forall_mem_nil _, hstop⟩
    · cases links with
      | nil => exact absurd (by simp) hstop
      | cons l links =>
        have hpower : ¬ l.op.power < power := fun h => hstop fun l' hl' => (by cases hl'; exact h)
        obtain ⟨hl, hlinks⟩ := List.forall_mem_cons.mp hlinks
        rw [Link.allTokens_cons] at hn hfuel ⊢
        obtain ⟨right, taken, more, rfl, hr, hright, horder, htaken, hmore⟩ :=
          groups_rightOperand ht hd l hl hlinks (Nat.le_trans (l.length_operand_le _) hn)
        have hgrouped : (Expr.binary l.op left right).Grouped :=
          grouped_binary hleft hright (hroot l rfl) horder htaken
        have hnext : ∀ l' ∈ more.head?, ∀ o ∈ (Expr.binary l.op left right).root?,
            l'.op.HoldsLeft o := by
          intro l' hl' o ho
          cases ho
          exact hmore l' hl'
        have hshorter (us : List Token) :
            (Link.allTokens more ++ us).length <
              (l.tokens ++ (Link.allTokens (taken ++ more) ++ us)).length := by
          have hlater := l.operand.length_lt (Link.allTokens (taken ++ more) ++ us)
          have hsuffix : (Link.allTokens more ++ us).length ≤
              (Link.allTokens (taken ++ more) ++ us).length := by
            rw [Link.allTokens_append, List.append_assoc]
            exact (List.suffix_append _ _).length_le
          exact Nat.lt_of_le_of_lt hsuffix (Nat.lt_of_lt_of_le hlater (l.length_operand_le _))
        have hmoreLength : (Link.allTokens more).length ≤ n := by
          have hless := hshorter []
          rw [List.append_nil, List.append_nil] at hless
          exact Nat.le_trans (Nat.le_of_lt hless) hn
        rw [List.append_assoc] at hfuel ⊢
        obtain ⟨e, taken', rest, fuel', rfl, hfuel', he, hegrouped, heorder, htaken', hrest⟩ :=
          ih (fun l' hl' => hlinks l' (List.mem_append_right _ hl')) hgrouped hnext hmoreLength
            (Nat.le_of_lt_succ (Nat.lt_of_lt_of_le (hshorter tail) hfuel))
        rw [operators_link, if_neg hpower, hr]
        refine ⟨e, l :: taken ++ taken', rest, fuel', by simp, hfuel', he, hegrouped, ?_, ?_, hrest⟩
        · rw [heorder, Expr.inorder, horder, Link.allSymbols_append, l.operand.inorder_expr]
          simp [Link.allSymbols, Link.symbols]
        · have hle := Nat.le_of_not_lt hpower
          intro l' hl'
          rw [List.mem_append, List.mem_cons] at hl'
          rcases hl' with (rfl | hl') | hl'
          · exact hle
          · exact Nat.le_trans hle (BinaryOp.power_le_iff.mpr (htaken l' hl').rank_le)
          · exact htaken' l' hl'

theorem groups_operators (hhalts : Halts power bars bare tail)
    (hlinks : ∀ l ∈ links, least ≤ l.op.power + 1)
    (hleft : left.Grouped) (hroot : ∀ l ∈ links.head?, ∀ o ∈ left.root?, l.op.HoldsLeft o)
    (hn : (Link.allTokens links).length ≤ n)
    (hfuel : (Link.allTokens links ++ tail).length ≤ fuel) :
    GroupsBefore tail left.inorder links (power ≤ BinaryOp.power ·) (BinaryOp.power · < power)
      (operators c deeper power bars bare fuel left (Link.allTokens links ++ tail)) := by
  obtain ⟨e, taken, more, fuel', hsplit, -, he, hgrouped, horder, htaken, hmore⟩ :=
    operators_takes ht hd power bare hlinks hleft hroot hn hfuel
  refine ⟨e, taken, more, hsplit, ?_, hgrouped, horder, htaken, hmore⟩
  rw [he]
  cases more with
  | nil => exact operators_halts hhalts fuel' e
  | cons l more =>
    cases fuel' with
    | zero => rfl
    | succ fuel' =>
      rw [Link.allTokens_cons, List.append_assoc, operators_link]
      exact if_pos (hmore l rfl)

variable (hc : c.done.kind = .done)
include hc

theorem groups_expressionAt (first : Operand) (hhalts : Halts power bars bare tail)
    (hlinks : ∀ l ∈ links, least ≤ l.op.power + 1)
    (h : (first.tokens ++ Link.allTokens links).length ≤ n + 1) :
    GroupsBefore tail first.expr.inorder links (power ≤ BinaryOp.power ·) (BinaryOp.power · < power)
      (expressionAt c deeper power bars bare (first.tokens ++ (Link.allTokens links ++ tail))) := by
  have hn : (Link.allTokens links).length ≤ n :=
    Nat.le_of_lt_succ (Nat.lt_of_lt_of_le (first.length_lt _) h)
  have hroot : ∀ l ∈ links.head?, ∀ o ∈ first.expr.root?, l.op.HoldsLeft o := by
    intro l _ o ho
    rw [first.root_expr] at ho
    cases ho
  rw [expressionAt, signed_operand hc (parts_allTokens ht.parts links) first]
  exact groups_operators ht hd hhalts hlinks (Expr.grouped_of_root_none first.root_expr) hroot hn
    (Nat.le_refl _)

end

theorem current_link_kind (l : Link) (ts : List Token) :
    (current c (l.tokens ++ ts)).kind = .operator (.arithmetic .pow) ↔ l.op = .arithmetic .pow := by
  obtain ⟨joint, operand, single⟩ := l
  cases joint with
  | written op t h =>
    have hkind : (current c (Link.tokens ⟨.written op t h, operand, single⟩ ++ ts)).kind =
        .operator op := h
    rw [hkind]
    exact ⟨Token.Kind.operator.inj, congrArg _⟩
  | implied =>
    have hkind : current c (Link.tokens ⟨.implied, operand, single⟩ ++ ts) = operand.head := rfl
    rw [hkind]
    refine iff_of_false (fun h => ?_) nofun
    rcases operand.head_kind with h' | h' <;> rw [h] at h' <;> cases h'

theorem drop_link (h : l.op = .arithmetic .pow) (ts : List Token) :
    (l.tokens ++ ts).drop 1 = l.operand.tokens ++ ts := by
  obtain ⟨joint, operand, single⟩ := l
  cases joint with
  | written op t h => rfl
  | implied => cases h

theorem groups_exponentAt (ht : Borders least bars tail)
    (hd : deeper.GroupsBefore least bars n tail)
    (hc : c.done.kind = .done) (first : Operand) (hfirst : first.head.isDigitRun = false)
    (hlinks : ∀ l ∈ links, least ≤ l.op.power + 1)
    (h : (first.tokens ++ Link.allTokens links).length ≤ n + 1) :
    GroupsBefore tail first.expr.inorder links (· = .arithmetic .pow) (· ≠ .arithmetic .pow)
      (exponentAt c deeper bars (first.tokens ++ (Link.allTokens links ++ tail))) := by
  have hfirstGrouped := Expr.grouped_of_root_none first.root_expr
  have hroot : ∀ o ∈ first.expr.root?, (BinaryOp.arithmetic .pow).HoldsLeft o := by
    intro o ho
    rw [first.root_expr] at ho
    cases ho
  rw [exponentAt, exponentOperand_operand hc (parts_allTokens ht.parts links) hfirst]
  dsimp only [bind, Except.bind]
  split
  · next hpow =>
    cases links with
    | nil => exact absurd hpow (ht.kind_ne_pow hc)
    | cons l links =>
      rw [Link.allTokens_cons] at hpow h ⊢
      rw [List.append_assoc] at hpow ⊢
      have hop := (current_link_kind l _).mp hpow
      have hn : (l.operand.tokens ++ Link.allTokens links).length ≤ n :=
        Nat.le_of_lt_succ (Nat.lt_of_le_of_lt (l.length_operand_le _)
          (Nat.lt_of_lt_of_le (first.length_lt _) h))
      obtain ⟨e, taken, left, rfl, he, hgrouped, horder, htaken, hleft⟩ :=
        hd.exponent l.operand links (l.single hop) (List.forall_mem_cons.mp hlinks).2 hn
      rw [drop_link hop, he]
      refine ⟨first.expr.pow e, l :: taken, left, rfl, rfl, ?_, ?_, ?_, hleft⟩
      · apply grouped_binary hfirstGrouped hgrouped hroot horder
        intro l' hl'
        exact .inr ⟨by rw [htaken l' hl'], rfl⟩
      · rw [Expr.pow, Expr.inorder, horder, first.inorder_expr, l.operand.inorder_expr]
        simp [Link.allSymbols, Link.symbols, hop]
      · intro l' hl'
        rcases List.mem_cons.mp hl' with rfl | hl'
        · exact hop
        · exact htaken l' hl'
  · next hpow =>
    apply groups_leave hfirstGrouped
    intro l hl
    cases links with
    | nil => cases hl
    | cons l links =>
      cases hl
      rw [Link.allTokens_cons, List.append_assoc, current_link_kind] at hpow
      exact hpow

theorem level_groupsBefore (ht : Borders least bars tail) (hc : c.done.kind = .done) (n : Nat) :
    (level c n).GroupsBefore least bars n tail := by
  induction n with
  | zero =>
    constructor <;> intros <;> next h => simp [Operand.tokens] at h
  | succ n ih =>
    exact ⟨fun _ _ first _ => groups_expressionAt ht ih hc first,
      fun first _ => groups_exponentAt ht ih hc first⟩

theorem level_groups (hc : c.done.kind = .done) (n : Nat) : (level c n).Groups n := by
  have hnone (bars : Nat) : (level c n).GroupsBefore 0 bars n [] :=
    level_groupsBefore (borders_nil (Nat.zero_le _)) hc n
  have hleast (links : List Link) : ∀ l ∈ links, 0 ≤ l.op.power + 1 := fun l _ => Nat.zero_le _
  constructor
  · intro power bars bare first links h
    have hgroups := (hnone bars).expression power bare first links halts_nil (hleast links) h
    simpa only [Parser.Groups, GroupsBefore, List.append_nil] using hgroups
  · intro bars first links hfirst h
    have hgroups := (hnone bars).exponent first links hfirst (hleast links) h
    simpa only [Parser.Groups, GroupsBefore, List.append_nil] using hgroups

end Parser

namespace Chain

/-- A chain is read, with levels for its tokens, and to the one grouped tree of its operands and
operators. -/
theorem reads_uniquely (ch : Chain) (done : Token) (hdone : done.kind = .done) (source : String)
    (limit : Int) (hlimit : ch.tokens.length ≤ limit) :
    ∃ e, Expr.ofTokens (ch.tokens ++ [done]) source limit = .ok e ∧ e.Grouped ∧
      e.inorder = ch.symbols ∧ ∀ e' : Expr, e'.Grouped → e'.inorder = ch.symbols → e' = e := by
  have hlevels : ch.tokens.length ≤ limit.toNat := by omega
  have hgroups : (Parser.level ⟨source, limit, done⟩ limit.toNat).Groups limit.toNat :=
    Parser.level_groups hdone limit.toNat
  obtain ⟨e, taken, left, hlinks, hr, hgrouped, horder, -, hleft⟩ :=
    hgroups.expression 0 0 false ch.first ch.links hlevels
  have hnil : left = [] := by
    cases left with
    | nil => rfl
    | cons l left => exact absurd (hleft l rfl) (Nat.not_lt_zero _)
  rw [hnil, List.append_nil] at hlinks
  rw [hnil] at hr
  rw [ch.first.inorder_expr, ← hlinks] at horder
  refine ⟨e, (Expr.ofTokens_eq_ok_iff ch.kind_ne_done hdone source limit e).mpr hr, hgrouped,
    horder, ?_⟩
  intro e' hgrouped' horder'
  exact hgrouped.unique hgrouped' (horder'.trans horder.symm)

def mixed : Chain where
  first := ⟨{ kind := .name, text := "a", pos := 0 },
    [{ kind := .factorial, text := "!", pos := 1 }], .inr rfl, List.forall_mem_singleton.mpr rfl⟩
  links :=
    [⟨.written (.arithmetic .sub)
        { kind := .operator (.arithmetic .sub), text := "-", pos := 2 } rfl,
      ⟨{ kind := .name, text := "b", pos := 3 }, [], .inr rfl, List.forall_mem_nil _⟩,
      fun _ => rfl⟩,
     ⟨.implied,
      ⟨{ kind := .name, text := "c", pos := 5 }, [], .inr rfl, List.forall_mem_nil _⟩,
      fun _ => rfl⟩,
     ⟨.written (.arithmetic .pow)
        { kind := .operator (.arithmetic .pow), text := "^", pos := 6 } rfl,
      ⟨{ kind := .name, text := "d", pos := 7 }, [], .inr rfl, List.forall_mem_nil _⟩,
      fun _ => rfl⟩,
     ⟨.written (.arithmetic .pow)
        { kind := .operator (.arithmetic .pow), text := "^", pos := 8 } rfl,
      ⟨{ kind := .number, text := "2", pos := 9, value := 2 }, [], .inl rfl, List.forall_mem_nil _⟩,
      fun _ => rfl⟩]

theorem mixed_reads_uniquely :
    Token.tokenize "a!-b c^d^2" = .ok (mixed.tokens ++ [Token.endToken 10]) ∧
    ∃ e, Expr.ofTokens (mixed.tokens ++ [Token.endToken 10]) "a!-b c^d^2" 10 = .ok e ∧ e.Grouped ∧
      e.inorder = mixed.symbols ∧ ∀ e' :
        Expr, e'.Grouped → e'.inorder = mixed.symbols → e' = e := by
  have hlimit : mixed.tokens.length ≤ (10 : Int) := by decide
  exact ⟨rfl, mixed.reads_uniquely (Token.endToken 10) rfl _ 10 hlimit⟩

end Chain

end UnitSheet
