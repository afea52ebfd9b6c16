import UnitSheet.Proofs.Expr.Delimited
import UnitSheet.Proofs.Expr.Signs

namespace UnitSheet

structure Chain.Tree (ch : Chain) (e : Expr) : Prop where
  grouped : e.Grouped
  inorder : e.inorder = ch.symbols

/-- A bare argument: maybe a sign, and operands joined by products, quotients and powers. -/
structure Argument where
  sign : Option Sign
  chain : Chain
  tight : ∀ l ∈ chain.links, 2 ≤ l.op.rank

structure FunctionName where
  token : Token
  function : Builtin
  token_kind : token.kind = .builtin function
  arity_function : function.arity = 1
  function_ne_sqrt : function ≠ .sqrt

theorem Chain.length_pos (ch : Chain) : 0 < ch.tokens.length :=
  Nat.lt_of_le_of_lt (Nat.zero_le _) (ch.first.length_lt (Link.allTokens ch.links))

namespace FunctionName

def call (f : FunctionName) (e : Expr) : Expr := .builtin f.function [e] none

theorem kind_ne_done (f : FunctionName) (y : Operand) :
    ∀ t ∈ f.token :: y.tokens, t.kind ≠ .done := by
  rw [List.forall_mem_cons, f.token_kind]
  exact ⟨nofun, y.kind_ne_done⟩

end FunctionName

namespace Argument

def tokens (A : Argument) : List Token := Sign.tokens A.sign ++ A.chain.tokens

def signed (A : Argument) (e : Expr) : Expr := Sign.apply A.sign e

def single (o : Operand) : Argument := ⟨none, ⟨o, []⟩, List.forall_mem_nil _⟩

theorem kind_ne_done (A : Argument) : ∀ t ∈ A.tokens, t.kind ≠ .done := by
  intro t ht
  rcases List.mem_append.mp ht with ht | ht
  · exact Sign.kind_ne_done A.sign t ht
  · exact A.chain.kind_ne_done t ht

theorem tree_single (o : Operand) : (single o).chain.Tree o.expr :=
  ⟨Expr.grouped_of_root_none o.root_expr, o.inorder_expr⟩

end Argument

namespace Parser

variable {c : Context} {deeper : Level} {power bars n : Nat} {bare : Bool} {ts tail : List Token}
variable {t : Token} {e : Expr} {ch : Chain} {A : Argument}

theorem expression_chain (bare : Bool) (ht : Borders 21 bars tail) (hc : c.done.kind = .done)
    (hpower : power ≤ 20) (htight : ∀ l ∈ ch.links, 2 ≤ l.op.rank) (h : ch.tokens.length ≤ n + 1) :
    ∃ e fuel, ch.Tree e ∧ tail.length ≤ fuel ∧ (level c (n + 1)).expression power bars bare
      (ch.tokens ++ tail) = operators c (level c n) power bars bare fuel e tail := by
  have hlinks : ∀ l ∈ ch.links, 20 ≤ l.op.power := by
    intro l hl
    have hle : (BinaryOp.arithmetic .mul).power ≤ l.op.power :=
      BinaryOp.power_le_iff.mpr (htight l hl)
    exact hle
  have hroot : ∀ l ∈ ch.links.head?, ∀ o ∈ ch.first.expr.root?, l.op.HoldsLeft o := by
    intro l _ o ho
    rw [ch.first.root_expr] at ho
    cases ho
  have hn : (Link.allTokens ch.links).length ≤ n :=
    Nat.le_of_lt_succ (Nat.lt_of_lt_of_le (ch.first.length_lt _) h)
  obtain ⟨e, taken, more, fuel, hsplit, hfuel, hr, hgrouped, horder, -, hmore⟩ :=
    operators_takes ht (level_groupsBefore ht hc n) power bare
      (fun l hl => Nat.succ_le_succ (hlinks l hl))
      (Expr.grouped_of_root_none ch.first.root_expr) hroot hn (Nat.le_refl _)
  have hnil : more = [] := by
    cases more with
    | nil => rfl
    | cons l more =>
      have hle := Nat.le_trans hpower (hlinks l (by simp [hsplit]))
      exact absurd (hmore l rfl) (Nat.not_lt.mpr hle)
  subst hnil
  rw [List.append_nil] at hsplit
  refine ⟨e, fuel, ⟨hgrouped, ?_⟩, hfuel, ?_⟩
  · rw [horder, ch.first.inorder_expr, ← hsplit]
    rfl
  · rw [level]
    dsimp only
    rw [Chain.tokens, List.append_assoc, expressionAt,
      signed_operand hc (parts_allTokens ht.parts _) ch.first]
    exact hr

theorem exists_tree (A : Argument) : ∃ e, A.chain.Tree e := by
  have hc : (⟨"", 0, Token.endToken 0⟩ : Context).done.kind = .done := rfl
  have ht : Borders 21 0 [] := borders_nil (by decide)
  obtain ⟨e, -, he, -⟩ := expression_chain false ht hc (Nat.zero_le 20) A.tight (Nat.le_succ _)
  exact ⟨e, he⟩

theorem expression_tree (he : A.chain.Tree e) (power : Nat) (bare : Bool)
    (ht : Borders 21 bars tail)
    (hc : c.done.kind = .done) (hpower : power ≤ 20) (h : A.chain.tokens.length ≤ n + 1) :
    ∃ fuel, tail.length ≤ fuel ∧ (level c (n + 1)).expression power bars bare
      (A.chain.tokens ++ tail) = operators c (level c n) power bars bare fuel e tail := by
  obtain ⟨e', fuel, he', hfuel, hr⟩ := expression_chain bare ht hc hpower A.tight h
  obtain rfl : e = e' := he'.grouped.unique he.grouped (he.inorder.trans he'.inorder.symm)
  exact ⟨fuel, hfuel, hr⟩

theorem expression_argument (he : A.chain.Tree e) (ht : Borders 21 bars tail)
    (hc : c.done.kind = .done)
    (hpower : power ≤ 20) (hhalts : Halts power bars bare tail)
    (hsign : ∀ s ∈ A.sign, Halts 15 bars false tail) (h : A.tokens.length ≤ n) :
    (level c n).expression power bars bare (A.tokens ++ tail) = .ok (A.signed e, tail) := by
  have hchain (power : Nat) (bare : Bool) (k : Nat) (hpower : power ≤ 20)
      (hhalts : Halts power bars bare tail) (hk : A.chain.tokens.length ≤ k + 1) :
      (level c (k + 1)).expression power bars bare (A.chain.tokens ++ tail) = .ok (e, tail) := by
    obtain ⟨fuel, -, hr⟩ := expression_tree he power bare ht hc hpower hk
    rw [hr]
    exact operators_halts hhalts fuel e
  have hpos := A.chain.length_pos
  rw [Argument.tokens, List.length_append] at h
  rw [Argument.tokens, Argument.signed]
  cases hs : A.sign with
  | none =>
    obtain ⟨k, rfl⟩ := Nat.exists_eq_add_one_of_ne_zero (show n ≠ 0 by omega)
    exact hchain power bare k hpower hhalts (by omega)
  | some s =>
    rw [hs, Sign.tokens, Option.map_some, Option.toList_some, List.length_singleton] at h
    obtain ⟨k, rfl⟩ : ∃ k, n = k + 1 + 1 := ⟨n - 2, by omega⟩
    rw [Sign.tokens, Option.map_some, Option.toList_some, List.singleton_append, List.cons_append,
      expression_sign, hchain 15 false k (by decide) (hsign s hs) (by omega)]
    exact operators_halts hhalts _ _

theorem kind_argument (A : Argument) (tail : List Token) :
    (current c (A.tokens ++ tail)).kind ∈
      [.number, .name, .operator (.arithmetic .add), .operator (.arithmetic .sub)] := by
  rw [Argument.tokens]
  cases A.sign with
  | none =>
    have hhead : (current c (Sign.tokens none ++ A.chain.tokens ++ tail)).kind =
        A.chain.first.head.kind := rfl
    rw [hhead]
    rcases A.chain.first.head_kind with h | h <;> simp [h]
  | some s =>
    have hhead :
        (current c (Sign.tokens (some s) ++ A.chain.tokens ++ tail)).kind = s.token.kind := rfl
    have hsign := s.token_sign
    rw [Token.sign?] at hsign
    rw [hhead]
    split at hsign <;> simp_all

theorem atom_function (f : FunctionName) (A : Argument) (tail : List Token) :
    atom c deeper bars (f.token :: (A.tokens ++ tail)) =
      deeper.expression 19 bars true (A.tokens ++ tail) >>= fun p => .ok (f.call p.1, p.2) := by
  have hkind := kind_argument (c := c) A tail
  generalize A.tokens ++ tail = ts at hkind
  simp only [List.mem_cons, List.not_mem_nil, or_false] at hkind
  have hsubscript : (current c ts).kind ≠ .subscript := by
    rcases hkind with h | h | h | h <;> simp [h]
  have hpower : powerSuffix c deeper bars ts = .ok (none, ts) := by
    apply if_neg
    rcases hkind with h | h | h | h <;> simp [h]
  have hargs : builtinArguments c deeper f.function f.token bars ts =
      deeper.expression 19 bars true ts >>= fun p => .ok ([p.1], p.2) := by
    have hparentheses : parentheses? c ts = none := by
      rw [parentheses?]
      rcases hkind with h | h | h | h <;> rw [h]
    have hterminator : ¬ (current c ts).kind.isTerminator = true := by
      rcases hkind with h | h | h | h <;> simp [h, Token.Kind.isTerminator]
    rw [builtinArguments, hparentheses]
    dsimp only
    rw [if_neg (not_not.mpr f.arity_function), if_neg hterminator]
    rfl
  rw [atom_builtin f.token_kind f.function_ne_sqrt hsubscript, builtinCall, hpower]
  dsimp only [bind, Except.bind]
  rw [hargs]
  cases deeper.expression 19 bars true ts <;> rfl

theorem expression_function (f : FunctionName) {a : Expr} (hparts : Parts tail)
    (h : (level c n).expression 19 bars true (A.tokens ++ ts) = .ok (a, tail)) :
    (level c (n + 1)).expression power bars bare (f.token :: (A.tokens ++ ts)) =
      operators c (level c n) power bars bare tail.length (f.call a) tail := by
  have hsign : f.token.sign? = none := by rw [Token.sign?, f.token_kind]
  have hprimary : primary c (level c n) bars (f.token :: (A.tokens ++ ts)) =
      .ok (f.call a, tail) := by
    rw [primary, atom_function, h]
    exact congrArg Except.ok (factorials_marks hparts [] (List.forall_mem_nil _) (f.call a))
  rw [level]
  dsimp only
  rw [expressionAt, signed, current_cons, hsign]
  dsimp only
  rw [hprimary]
  rfl

theorem borders_of_halts (hparts : Parts tail) (h : Halts 15 bars false tail) :
    Borders 21 bars tail :=
  ⟨hparts, h.mono (by decide), by decide⟩

theorem parts_function (g : FunctionName) (ts : List Token) : Parts (g.token :: ts) := by
  simp [g.token_kind]

theorem borders_function (g : FunctionName) (ts : List Token) :
    Borders 21 bars (g.token :: ts) := by
  refine ⟨parts_function g ts, ?_, by decide⟩
  simp [g.token_kind, continues]

theorem halts_function (g : FunctionName) (ts : List Token) :
    Halts 19 bars true (g.token :: ts) := by
  simp [g.token_kind, continues, Token.Kind.isBuiltin]

theorem parts_operator {op : BinaryOp} (h : t.kind = .operator op) : Parts (t :: ts) := by
  simp [h]

theorem halts_operator {op : BinaryOp} (h : t.kind = .operator op) (hop : op.rank < 2) :
    Halts 15 bars false (t :: ts) := by
  have hle : op.power ≤ (BinaryOp.arithmetic .add).power :=
    BinaryOp.power_le_iff.mpr (Nat.le_of_lt_succ hop)
  rw [halts_cons, h]
  exact decide_eq_false (Nat.not_le.mpr (Nat.lt_of_le_of_lt hle (by decide)))

theorem Ends.parts (h : Ends bars tail) : Parts tail := by
  obtain ⟨s, rest, rfl, hs⟩ := h
  unfold ends at hs
  split at hs <;> simp_all

theorem Ends.halts (h : Ends bars tail) : Halts 15 bars false tail := by
  obtain ⟨s, rest, rfl, hs⟩ := h
  unfold ends at hs
  split at hs <;> simp_all [continues, Token.Kind.startsOperand]

theorem operators_function (hpower : power ≤ 20) (g : FunctionName) (ts : List Token) (fuel : Nat)
    (left : Expr) : operators c deeper power bars false (fuel + 1) left (g.token :: ts) =
      deeper.expression 21 bars false (g.token :: ts) >>= fun p =>
        operators c deeper power bars false fuel (left.mul p.1) p.2 := by
  rw [operators, g.token_kind]
  dsimp only
  rw [if_pos (by simp [Token.Kind.startsOperand, hpower])]

theorem tokens_single (o : Operand) : (Argument.single o).tokens = o.tokens :=
  List.append_nil _

theorem expression_call (g : FunctionName) (y : Operand) (hc : c.done.kind = .done)
    (h : y.tokens.length < n) :
    (level c n).expression power bars bare (g.token :: y.tokens) = .ok (g.call y.expr, []) := by
  obtain ⟨n, rfl⟩ := Nat.exists_eq_add_one_of_ne_zero (Nat.ne_zero_of_lt h)
  have harg : (level c n).expression 19 bars true ((Argument.single y).tokens ++ []) =
      .ok (y.expr, []) := by
    refine expression_argument (Argument.tree_single y) (borders_nil (by decide)) hc
      (by decide) halts_nil (fun _ _ => halts_nil) ?_
    rw [tokens_single]
    exact Nat.le_of_lt_succ h
  rw [← List.append_nil y.tokens, ← tokens_single, expression_function g parts_nil harg]
  exact operators_halts halts_nil _ _

theorem expression_signed_function (he : A.chain.Tree e) {s : Sign} (hs : A.sign = some s)
    (g : FunctionName)
    (y : Operand) (hc : c.done.kind = .done) (h : (A.tokens ++ g.token :: y.tokens).length ≤ n) :
    (level c n).expression power bars bare (A.tokens ++ g.token :: y.tokens) =
      .ok (.unary s.op (e.mul (g.call y.expr)), []) := by
  have hpos := A.chain.length_pos
  rw [Argument.tokens, hs, Sign.tokens, Option.map_some, Option.toList_some, List.singleton_append,
    List.cons_append] at h ⊢
  rw [List.length_cons, List.length_append, List.length_cons] at h
  obtain ⟨k, rfl⟩ : ∃ k, n = k + 1 + 1 := ⟨n - 2, by omega⟩
  obtain ⟨fuel, hfuel, hr⟩ : ∃ fuel, (g.token :: y.tokens).length ≤ fuel ∧
      (level c (k + 1)).expression 15 bars false (A.chain.tokens ++ g.token :: y.tokens) =
        operators c (level c k) 15 bars false fuel e (g.token :: y.tokens) :=
    expression_tree he 15 false (borders_function g _) hc (by decide) (by omega)
  obtain ⟨fuel, rfl⟩ := Nat.exists_eq_add_one_of_ne_zero (Nat.ne_zero_of_lt hfuel)
  have hcall : (level c k).expression 21 bars false (g.token :: y.tokens) =
      .ok (g.call y.expr, []) :=
    expression_call g y hc (by omega)
  rw [expression_sign, hr, operators_function (by decide), hcall]
  dsimp only [bind, Except.bind]
  rw [operators_halts halts_nil]
  exact operators_halts halts_nil _ _

theorem operators_operator {op : BinaryOp} (ht : t.kind = .operator op) (hop : op.rank < 2)
    (hc : c.done.kind = .done)
    (hpower : power ≤ op.power) (y : Operand) (fuel : Nat) (left : Expr) :
    operators c (level c (n + 1)) power bars bare (fuel + 1) left (t :: y.tokens) =
      .ok (.binary op left y.expr, []) := by
  have hpow : op ≠ .arithmetic .pow := by
    rintro rfl
    exact absurd hop (by decide)
  have hstop : ¬ op.power < power := Nat.not_lt.mpr hpower
  let l : Link := ⟨.written op t ht, y, fun h => absurd h hpow⟩
  have htokens : t :: y.tokens = l.tokens ++ [] := (List.append_nil _).symm
  have hright : rightOperand (level c (n + 1)) l.op bars (l.operand.tokens ++ []) =
      .ok (y.expr, []) := by
    have hnot : l.op ≠ .arithmetic .pow := hpow
    rw [rightOperand, if_neg hnot]
    exact expression_operand hc parts_nil halts_nil y
  rw [htokens, operators_link, hright]
  exact (if_neg hstop).trans (operators_halts halts_nil fuel _)

/-- The tokens are read to the expression, with levels for the tokens. -/
def Spells (ts : List Token) (e : Expr) : Prop :=
  ∀ (source : String) (limit : Int) (done : Token), done.kind = .done → ts.length ≤ limit →
    Expr.ofTokens (ts ++ [done]) source limit = .ok e

theorem spells_of_expression (hkind : ∀ t ∈ ts, t.kind ≠ .done)
    (h : ∀ c n, c.done.kind = .done → ts.length ≤ n → (level c n).expression 0 0 false ts =
    .ok (e, [])) : Spells ts e := by
  intro source limit done hdone hlimit
  exact (Expr.ofTokens_eq_ok_iff hkind hdone source limit e).mpr (h _ _ hdone (by omega))

theorem spells_function (f : FunctionName) (a : Expr) (tail : List Token)
    (hts : ∀ t ∈ ts, t.kind ≠ .done) (hparts : Parts tail)
    (harg : ∀ c n, c.done.kind = .done → (A.tokens ++ ts).length ≤ n →
      (level c n).expression 19 0 true (A.tokens ++ ts) = .ok (a, tail))
    (hrest : ∀ c n, c.done.kind = .done → (A.tokens ++ ts).length ≤ n →
      operators c (level c n) 0 0 false tail.length (f.call a) tail = .ok (e, [])) :
    Spells (f.token :: (A.tokens ++ ts)) e := by
  refine spells_of_expression ?_ fun c n hc hn => ?_
  · rw [List.forall_mem_cons, List.forall_mem_append, f.token_kind]
    exact ⟨nofun, A.kind_ne_done, hts⟩
  · obtain ⟨n, rfl⟩ := Nat.exists_eq_add_one_of_ne_zero (Nat.ne_zero_of_lt hn)
    have hlength := Nat.le_of_succ_le_succ hn
    rw [expression_function f hparts (harg c n hc hlength)]
    exact hrest c n hc hlength

/-- How far a function reads that stands in front of the argument `A`, with the tree `e` below its
sign. -/
structure Reach (A : Argument) (e : Expr) : Prop where
  alone : Spells A.tokens (A.signed e)
  function : A.sign = none → ∀ f g : FunctionName, ∀ y : Operand,
    Spells (f.token :: (A.tokens ++ g.token :: y.tokens)) ((f.call e).mul (g.call y.expr))
  function_signed : ∀ s, A.sign = some s → ∀ f g : FunctionName, ∀ y : Operand,
    Spells (f.token :: (A.tokens ++ g.token :: y.tokens))
      (f.call (.unary s.op (e.mul (g.call y.expr))))
  operator : ∀ (f : FunctionName) (t : Token) (op : BinaryOp) (y : Operand), t.kind = .operator op →
    op.rank < 2 →
    Spells (f.token :: (A.tokens ++ t :: y.tokens)) (.binary op (f.call (A.signed e)) y.expr)
  delimiter : ∀ (f : FunctionName) c n bars tail, c.done.kind = .done → A.tokens.length ≤ n →
    Ends bars tail →
    atom c (level c n) bars (f.token :: (A.tokens ++ tail)) = .ok (f.call (A.signed e), tail)

section
variable (he : A.chain.Tree e)
include he

/-- Sums, comparisons and closing delimiters stop the argument above its sign and below it. -/
theorem expression_argument_of_halts (hparts : Parts tail) (hhalts : Halts 15 bars false tail)
    (hc : c.done.kind = .done) (h : A.tokens.length ≤ n) :
    (level c n).expression 19 bars true (A.tokens ++ tail) = .ok (A.signed e, tail) :=
  expression_argument he (borders_of_halts hparts hhalts) hc (by decide) (hhalts.mono (by decide))
    (fun _ _ => hhalts) h

theorem spells_argument : Spells A.tokens (A.signed e) := by
  refine spells_of_expression A.kind_ne_done fun c n hc hn => ?_
  have hr : (level c n).expression 0 0 false (A.tokens ++ []) = .ok (A.signed e, []) :=
    expression_argument he (borders_nil (by decide)) hc (by decide) halts_nil
      (fun _ _ => halts_nil) hn
  rwa [List.append_nil] at hr

theorem spells_before_function (hsign : A.sign = none) (f g : FunctionName) (y : Operand) :
    Spells (f.token :: (A.tokens ++ g.token :: y.tokens)) ((f.call e).mul (g.call y.expr)) := by
  refine spells_function f e (g.token :: y.tokens) (g.kind_ne_done y) (parts_function g _)
    (fun c n hc hn => ?_) fun c n hc hn => ?_
  · rw [List.length_append] at hn
    have hnone : ∀ s ∈ A.sign, Halts 15 0 false (g.token :: y.tokens) := by
      intro s hs
      rw [hsign] at hs
      cases hs
    have hsigned : A.signed e = e := by rw [Argument.signed, hsign, Sign.apply]
    rw [expression_argument he (borders_function g _) hc (by decide) (halts_function g _) hnone
      (Nat.le_of_add_right_le hn), hsigned]
  · rw [List.length_append, List.length_cons] at hn
    have hcall : (level c n).expression 21 0 false (g.token :: y.tokens) =
        .ok (g.call y.expr, []) :=
      expression_call g y hc (by omega)
    rw [List.length_cons, operators_function (Nat.zero_le _), hcall]
    exact operators_halts halts_nil _ _

theorem spells_signed_function {s : Sign} (hs : A.sign = some s) (f g : FunctionName)
    (y : Operand) :
    Spells (f.token :: (A.tokens ++ g.token :: y.tokens))
      (f.call (.unary s.op (e.mul (g.call y.expr)))) :=
  spells_function f _ [] (g.kind_ne_done y) parts_nil
    (fun _ _ hc hn => expression_signed_function he hs g y hc hn)
      fun _ _ _ _ => operators_halts halts_nil _ _

theorem spells_before_operator (f : FunctionName) {op : BinaryOp} (ht : t.kind = .operator op)
    (hop : op.rank < 2)
    (y : Operand) : Spells (f.token :: (A.tokens ++ t :: y.tokens))
    (.binary op (f.call (A.signed e)) y.expr) := by
  have hy : ∀ t' ∈ t :: y.tokens, t'.kind ≠ .done := by
    rw [List.forall_mem_cons, ht]
    exact ⟨nofun, y.kind_ne_done⟩
  refine spells_function f (A.signed e) (t :: y.tokens) hy (parts_operator ht) (fun c n hc hn => ?_)
    fun c n hc hn => ?_
  · rw [List.length_append] at hn
    exact expression_argument_of_halts he (parts_operator ht) (halts_operator ht hop) hc
      (Nat.le_of_add_right_le hn)
  · rw [List.length_append, List.length_cons] at hn
    obtain ⟨n, rfl⟩ : ∃ k, n = k + 1 := ⟨n - 1, by omega⟩
    exact operators_operator ht hop hc (Nat.zero_le _) y _ _

theorem atom_before_delimiter (f : FunctionName) (hc : c.done.kind = .done)
    (hn : A.tokens.length ≤ n) (htail : Ends bars tail) :
    atom c (level c n) bars (f.token :: (A.tokens ++ tail)) = .ok (f.call (A.signed e), tail) := by
  rw [atom_function, expression_argument_of_halts he htail.parts htail.halts hc hn]
  rfl

end

end Parser

/-- A function takes the whole argument behind it. Sums, comparisons and closing delimiters stop it,
and another function does if the argument has no sign; below a sign that function is one more
factor. -/
theorem Argument.reach (A : Argument) : ∃ e, Parser.Reach A e := by
  obtain ⟨e, he⟩ := Parser.exists_tree A
  exact ⟨e, Parser.spells_argument he, Parser.spells_before_function he,
    fun s => Parser.spells_signed_function he,
    fun f t op y ht hop => Parser.spells_before_operator he f ht hop y,
    fun f c n bars tail => Parser.atom_before_delimiter he f⟩

namespace Argument

def sine : FunctionName :=
  ⟨{ kind := .builtin .sin, text := "\\sin", pos := 0 }, .sin, rfl, rfl, nofun⟩

def cosine : FunctionName :=
  ⟨{ kind := .builtin .cos, text := "\\cos", pos := 7 }, .cos, rfl, rfl, nofun⟩

def negative : Argument where
  sign := some ⟨{ kind := .operator (.arithmetic .sub), text := "-", pos := 5 }, .neg, rfl⟩
  chain := ⟨.named "x" 6, []⟩
  tight := List.forall_mem_nil _

def factor : Operand := .named "y" 12

/-- With however many levels, `\sin -x\cos y` is not the product `\sin(-x)*\cos(y)`, but
`\sin(-(x*\cos(y)))`. -/
theorem sine_not_product :
    Token.tokenize "\\sin -x\\cos y" = .ok
      (sine.token :: (negative.tokens ++ cosine.token :: factor.tokens) ++ [Token.endToken 13]) ∧
    Parser.Spells negative.tokens (.unary .neg (.name "x")) ∧
    ¬ ∃ depth : Int, ∀ limit, depth ≤ limit →
      Expr.ofTokens
        (sine.token :: (negative.tokens ++ cosine.token :: factor.tokens) ++ [Token.endToken 13])
        "\\sin -x\\cos y" limit = .ok
          ((sine.call (.unary .neg (.name "x"))).mul (cosine.call factor.expr)) := by
  have htree : negative.chain.Tree (.name "x") := tree_single negative.chain.first
  refine ⟨rfl, Parser.spells_argument htree, fun ⟨depth, h⟩ => ?_⟩
  have hread := Parser.spells_signed_function htree rfl sine cosine factor "\\sin -x\\cos y"
    (max depth 5) (Token.endToken 13) rfl (Int.le_max_right depth 5)
  rw [h _ (Int.le_max_left depth 5)] at hread
  cases hread

end Argument

end UnitSheet
