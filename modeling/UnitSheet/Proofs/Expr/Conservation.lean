import UnitSheet.Proofs.Expr.Inventory
import UnitSheet.Proofs.Expr.Legibility
import UnitSheet.Proofs.Expr.Progress

namespace UnitSheet

namespace Parser

variable {α β : Type} {c : Context} {deeper : Level} {ts us : List Token} {t : Token}
variable {stage : Token.Stage}
variable {held held' : Inventory} {worth : α → Inventory} {worth' : β → Inventory}
variable {bars power : Nat} {bare : Bool}
variable {r : Except Stop (α × List Token)} {f : α × List Token → Except Stop (β × List Token)}

def productMark : Inventory := .mark (.operator (.arithmetic .mul))

/-- A reading that holds some inventory already gives something worth it and the tokens that it
takes, maybe with products that are not written. -/
def Gives (held : Inventory) (stage : Token.Stage) (ts : List Token) (worth : α → Inventory)
    (r : Except Stop (α × List Token)) : Prop :=
  ∀ a us, r = .ok (a, us) →
    ∃ k : Nat, held + Token.stock stage ts + k • productMark = worth a + Token.stock .plain us

theorem gives_error (stop : Stop) : Gives held stage ts worth (.error stop) := by
  intro a us h
  cases h

theorem gives_fail (cause : ParseError.Cause) (t : Token) :
    Gives held stage ts worth (fail c cause t) :=
  gives_error _

theorem gives_ok {a : α} (h : held = worth a) : Gives held .plain us worth (.ok (a, us)) := by
  intro b vs hb
  cases hb
  refine ⟨0, ?_⟩
  rw [h, zero_nsmul, add_zero]

theorem Gives.of_eq (h : Gives held' stage ts worth r) (heq : held = held') :
    Gives held stage ts worth r :=
  heq ▸ h

theorem Gives.bind (h : Gives 0 stage ts worth r)
    (hf : ∀ a us, r = .ok (a, us) → Gives (held + worth a) .plain us worth' (f (a, us))) :
    Gives held stage ts worth' (r >>= f) := by
  intro b vs hb
  obtain ⟨⟨a, us⟩, hr, hb⟩ := exists_of_bind hb
  obtain ⟨k, hk⟩ := h a us hr
  obtain ⟨l, hl⟩ := hf a us hr b vs hb
  refine ⟨k + l, ?_⟩
  calc held + Token.stock stage ts + (k + l) • productMark
      = held + (0 + Token.stock stage ts + k • productMark) + l • productMark := by
        rw [add_nsmul]; abel
    _ = held + worth a + Token.stock .plain us + l • productMark := by rw [hk]; abel
    _ = worth' b + Token.stock .plain vs := hl

theorem Gives.product (h : Gives (held + productMark) stage ts worth r) :
    Gives held stage ts worth r := by
  intro a us ha
  obtain ⟨k, hk⟩ := h a us ha
  refine ⟨k + 1, ?_⟩
  rw [← hk, succ_nsmul]
  abel

theorem Gives.take {x : Inventory} {stage' : Token.Stage}
    (hcut : (stage.cuts && t.isDigitRun) = false)
    (hx : t.inventory = x) (hnext : stage.next t.kind = stage')
    (h : Gives (held + x) stage' ts worth r) : Gives held stage (t :: ts) worth r := by
  intro a us ha
  obtain ⟨k, hk⟩ := h a us ha
  refine ⟨k, ?_⟩
  rw [← hk, Token.stock_cons hcut, hx, hnext]
  abel

theorem Gives.restage {stage' : Token.Stage} (hstock : Token.stock stage ts = Token.stock stage' ts)
    (h : Gives held stage' ts worth r) : Gives held stage ts worth r := by
  intro a us ha
  rw [hstock]
  exact h a us ha

theorem gives_split (g : Literal → α) (hcuts : stage.cuts = true) (hrun : t.isDigitRun = true)
    (h : ∀ digit, held + .literal digit = worth (g digit)) :
    Gives held stage (t :: ts) worth (split t >>= fun p => .ok (g p.1, p.2 :: ts)) := by
  intro a us ha
  obtain ⟨⟨digit, rest⟩, hs, ha⟩ := exists_of_bind ha
  cases ha
  refine ⟨0, ?_⟩
  rw [Token.stock_split hcuts hrun (splitDigit_of_split hs), ← h, zero_nsmul]
  abel

/-- The kinds of tokens that bring nothing and after which a run of digits is no special one. -/
def isDelimiter : Token.Kind → Bool
  | .opening _ | .closing _ | .bar | .comma => true
  | _ => false

theorem inventory_delimiter (h : isDelimiter t.kind = true) : t.inventory = 0 := by
  rw [Token.inventory]
  cases hkind : t.kind <;> simp_all [isDelimiter]

theorem next_delimiter (h : isDelimiter t.kind = true) : stage.next t.kind = .plain := by
  cases hkind : t.kind <;> simp_all [isDelimiter, Token.Stage.next]

theorem isDigitRun_delimiter (h : isDelimiter t.kind = true) : t.isDigitRun = false := by
  rw [Token.isDigitRun]
  cases hkind : t.kind <;> simp_all [isDelimiter]

theorem Gives.skip (ht : isDelimiter t.kind = true) (h : Gives held .plain ts worth r) :
    Gives held stage (t :: ts) worth r := by
  have hcut : (stage.cuts && t.isDigitRun) = false := by
    rw [isDigitRun_delimiter ht, Bool.and_false]
  exact Gives.take hcut (inventory_delimiter ht) (next_delimiter ht) (h.of_eq (add_zero held))

theorem stock_log (h : (current c ts).kind ≠ .subscript) :
    Token.stock .log ts = Token.stock .plain ts := by
  rw [Token.stock, cutRuns_log h, Token.stock]

theorem stock_power (hsign : (current c ts).sign? = none)
    (hrun : (current c ts).isDigitRun = false) : Token.stock .power ts = Token.stock .plain ts := by
  rw [Token.stock, cutRuns_power hsign hrun, Token.stock]

theorem inventory_sign {op : UnaryOp} (h : t.sign? = some op) : t.inventory = .mark op.mark := by
  rw [Token.sign?] at h
  split at h
  · next hkind =>
    cases h
    rw [Token.inventory, hkind, UnaryOp.mark]
  · next hkind =>
    cases h
    rw [Token.inventory, hkind, UnaryOp.mark]
  · cases h

theorem Gives.first {x : Inventory} {stage' : Token.Stage} (hx : t.inventory = x)
    (hnext : Token.Stage.plain.next t.kind = stage') (h : Gives x stage' ts worth r) :
    Gives 0 .plain (t :: ts) worth r :=
  Gives.take rfl hx hnext (h.of_eq (zero_add x))

theorem gives_factorials (e : Expr) (ts : List Token) :
    Gives e.inventory .plain ts Expr.inventory (.ok (factorials e ts)) := by
  induction ts generalizing e with
  | nil => exact gives_ok rfl
  | cons t ts ih =>
    rw [factorials]
    split
    · next h =>
      have hnext : Token.Stage.plain.next t.kind = .plain := by rw [h]; rfl
      apply Gives.take rfl (by rw [Token.inventory, h]) hnext
      apply (ih _).of_eq
      rw [Expr.inventory_unary, UnaryOp.mark, add_comm]
    · exact gives_ok rfl

def signsWorth (signs : List UnaryOp) : Inventory := (signs.map fun op => .mark op.mark).sum

theorem inventory_signs (signs : List UnaryOp) (e : Expr) :
    (signs.foldr Expr.unary e).inventory = signsWorth signs + e.inventory := by
  induction signs with
  | nil => exact (zero_add _).symm
  | cons op signs ih =>
    rw [List.foldr_cons, Expr.inventory_unary, ih, signsWorth, signsWorth, List.map_cons,
      List.sum_cons, add_assoc]

theorem stock_spanSigns (ts : List Token) :
    Token.stock .power ts = signsWorth (spanSigns ts).1 + Token.stock .power (spanSigns ts).2 := by
  induction ts with
  | nil => exact (zero_add _).symm
  | cons t ts ih =>
    rw [spanSigns]
    split
    · next op hop =>
      have hcut : (Token.Stage.power.cuts && t.isDigitRun) = false := by
        rw [Token.isDigitRun_sign hop, Bool.and_false]
      rw [Token.stock_cons hcut, inventory_sign hop, Token.next_sign hop, if_pos rfl, ih,
        ← add_assoc]
      rfl
    · exact (zero_add _).symm

section
variable (hc : c.done.kind = .done)
include hc

/-- Reading behind a delimiter in view. -/
theorem Gives.behind (ht : isDelimiter (current c ts).kind = true)
    (h : Gives held .plain (ts.drop 1) worth r) : Gives held stage ts worth r := by
  cases ts with
  | nil =>
    rw [current, List.headD_nil, hc] at ht
    cases ht
  | cons t ts => exact h.skip ht

theorem gives_expect {a : α} (kind : Token.Kind) (hkind : isDelimiter kind = true)
    (h : held = worth a) :
    Gives held .plain us worth (expect c kind us >>= fun us => .ok (a, us)) := by
  intro b vs hb
  obtain ⟨ws, he, hb⟩ := exists_of_bind hb
  cases hb
  obtain ⟨t, rfl, rfl⟩ := expect_eq_ok hc kind (by rintro rfl; cases hkind) he
  exact (gives_ok h).skip hkind a vs rfl

theorem Gives.behind_power (ht : (current c ts).kind = .operator (.arithmetic .pow))
    (h : Gives (held + .mark (.operator (.arithmetic .pow))) .power (ts.drop 1) worth r)
    (hcut : stage.cuts = false) : Gives held stage ts worth r := by
  cases ts with
  | nil => exact absurd ht (current_nil hc _ (by simp))
  | cons t ts =>
    rw [current_cons] at ht
    exact h.take (by rw [hcut, Bool.false_and]) (by rw [Token.inventory, ht])
      (by rw [ht]; cases stage <;> rfl)

end

theorem eq_map_name {args : List Expr} {params : List String}
    (h : (args.mapM fun | .name x => some x | _ => none) = some params) :
    args = params.map .name := by
  induction args generalizing params with
  | nil =>
    cases h
    rfl
  | cons a args ih =>
    rw [List.mapM_cons] at h
    cases a with
    | name x =>
      cases hargs : args.mapM fun | .name x => some x | _ => none with
      | none =>
        rw [hargs] at h
        cases h
      | some xs =>
        rw [hargs] at h
        cases h
        rw [List.map_cons, ← ih hargs]
    | _ => cases h

theorem inventory_assignment {target value e : Expr} (h : assignment c target value t = .ok e) :
    target.inventory + .mark .equal + value.inventory = e.inventory := by
  cases target with
  | name x =>
    cases h
    exact (Expr.inventory_assign x value).symm
  | call g args =>
    rw [assignment] at h
    split at h
    · next params hparams =>
      split at h
      · cases h
        rw [eq_map_name hparams, Expr.inventory_define]
      · cases h
    · cases h
  | _ => cases h

structure Level.Gives (deeper : Level) : Prop where
  expression : ∀ power bars bare ts,
    Parser.Gives 0 .plain ts Expr.inventory (deeper.expression power bars bare ts)
  exponent : ∀ bars ts, Parser.Gives 0 .power ts Expr.inventory (deeper.exponent bars ts)

section
variable (hd : deeper.Gives)
include hd

theorem gives_moreArguments (fuel : Nat) (ts : List Token) :
    Gives 0 .plain ts Expr.inventoryAll (moreArguments deeper fuel ts) := by
  induction fuel generalizing ts with
  | zero => exact gives_ok rfl
  | succ fuel ih =>
    cases ts with
    | nil => exact gives_ok rfl
    | cons t ts =>
      rw [moreArguments]
      split
      · next ht =>
        apply Gives.skip (by rw [ht]; rfl)
        apply (hd.expression 0 0 false ts).bind
        intro e us _
        apply (ih us).bind
        intro es vs _
        exact gives_ok (by rw [Expr.inventoryAll_cons, zero_add])
      · exact gives_ok rfl

theorem gives_operators (fuel : Nat) (left : Expr) (ts : List Token) :
    Gives left.inventory .plain ts Expr.inventory
      (operators c deeper power bars bare fuel left ts) := by
  induction fuel generalizing left ts with
  | zero => exact gives_ok rfl
  | succ fuel ih =>
    cases ts with
    | nil => exact gives_ok rfl
    | cons t ts =>
      rw [operators]
      split
      · next ht =>
        have hnext : Token.Stage.plain.next t.kind = .power := by rw [ht]; rfl
        split
        · exact gives_ok rfl
        · apply Gives.take rfl (by rw [Token.inventory, ht]) hnext
          apply (hd.exponent bars ts).bind
          intro right us _
          apply (ih _ us).of_eq
          rw [Expr.pow, Expr.inventory_binary]
          abel
      · next op hop ht =>
        have hnext := Token.next_operator ht hop
        split
        · exact gives_ok rfl
        · apply Gives.take rfl (by rw [Token.inventory, ht]) hnext
          apply (hd.expression _ bars false ts).bind
          intro right us _
          apply (ih _ us).of_eq
          rw [Expr.inventory_binary]
          abel
      · next ht =>
        have hnext : Token.Stage.plain.next t.kind = .plain := by rw [ht]; rfl
        split
        · exact gives_ok rfl
        · apply Gives.take rfl (by rw [Token.inventory, ht]) hnext
          apply (hd.expression 1 bars false ts).bind
          intro value us _
          dsimp only
          cases he : assignment c left value t with
          | error stop => exact gives_error _
          | ok e =>
            apply (ih e us).of_eq
            exact inventory_assignment he
      · split
        · apply Gives.product
          apply (hd.expression 21 bars false _).bind
          intro right us _
          apply (ih _ us).of_eq
          rw [Expr.mul, Expr.inventory_binary, productMark]
          abel
        · exact gives_ok rfl

variable (hc : c.done.kind = .done)
include hc

theorem gives_enclosed (b : Bracket) (ts : List Token) :
    Gives 0 .plain ts Expr.inventory (enclosed c deeper b ts) := by
  apply (hd.expression 0 0 false ts).bind
  intro e us _
  exact gives_expect hc (.closing b) rfl (zero_add _)

theorem gives_braced (ts : List Token) : Gives 0 .plain ts Expr.inventory (braced c deeper ts) := by
  rw [braced]
  split
  · next ht => exact (gives_enclosed hd hc .brace _).behind hc (by rw [ht]; rfl)
  · exact gives_fail _ _

theorem gives_arguments (b : Bracket) (ts : List Token) :
    Gives 0 .plain ts Expr.inventoryAll (arguments c deeper b ts) := by
  rw [arguments]
  split
  · next ht => exact Gives.behind hc (by rw [ht]; rfl) (gives_ok rfl)
  · apply (hd.expression 0 0 false ts).bind
    intro e us _
    apply (gives_moreArguments hd us.length us).bind
    intro es vs _
    exact gives_expect hc (.closing b) rfl (by rw [Expr.inventoryAll_cons, zero_add])

theorem gives_builtinArguments (g : Builtin) (name : Token) (ts : List Token) :
    Gives 0 .plain ts Expr.inventoryAll (builtinArguments c deeper g name bars ts) := by
  rw [builtinArguments]
  split
  · next b hb =>
    apply Gives.behind hc (by rw [kind_of_parentheses hb]; rfl)
    apply (gives_arguments hd hc b _).bind
    intro args us _
    dsimp only
    split
    · exact gives_ok (zero_add _)
    · exact gives_fail _ _
  · split
    · exact gives_fail _ _
    · split
      · exact gives_fail _ _
      · apply (hd.expression 19 bars true ts).bind
        intro e us _
        exact gives_ok (by rw [Expr.inventoryAll_singleton, zero_add])

def exponentWorth : Option Expr → Inventory
  | none => 0
  | some e => .mark (.operator (.arithmetic .pow)) + e.inventory

theorem gives_powerSuffix (ts : List Token) :
    Gives 0 .plain ts exponentWorth (powerSuffix c deeper bars ts) := by
  rw [powerSuffix]
  split
  · next ht =>
    refine Gives.behind_power hc ht ?_ rfl
    apply (hd.exponent bars _).bind
    intro e us _
    exact gives_ok (by rw [exponentWorth, zero_add])
  · exact gives_ok rfl

theorem gives_builtinCall (g : Builtin) (special : Option Expr) (name : Token) (ts : List Token) :
    Gives (Expr.inventoryAll special.toList) .plain ts Expr.inventory
      (builtinCall c deeper g special name bars ts) := by
  apply (gives_powerSuffix hd hc ts).bind
  intro exponent us _
  apply (gives_builtinArguments hd hc g name us).bind
  intro args vs _
  cases exponent with
  | none =>
    apply gives_ok
    rw [exponentWorth, Expr.inventory_builtin]
    abel
  | some e =>
    apply gives_ok
    dsimp only [exponentWorth, Expr.pow]
    rw [Expr.inventory_binary, Expr.inventory_builtin]
    abel

theorem gives_logBase (ts : List Token) :
    Gives 0 .base ts Expr.inventory (logBase c deeper ts) := by
  rw [logBase]
  dsimp only
  split
  · next ht => exact (gives_enclosed hd hc .brace _).behind hc (by rw [ht]; rfl)
  · next ht =>
    cases ts with
    | nil => exact absurd ht (current_nil hc _ (by simp))
    | cons t ts =>
      rw [current_cons] at ht ⊢
      split
      · next hrun =>
        exact gives_split Expr.literal rfl hrun fun digit => by
          rw [Expr.inventory_literal, zero_add]
      · next hrun =>
        have hcut : (Token.Stage.base.cuts && t.isDigitRun) = false := by
          simpa [Token.Stage.cuts] using hrun
        have hnext : Token.Stage.base.next t.kind = .plain := by rw [ht]; rfl
        apply Gives.take hcut (by rw [Token.inventory, ht]) hnext
        exact gives_ok (by rw [Expr.inventory_literal, zero_add])
  · exact gives_fail _ _

theorem gives_logarithm (name : Token) (ts : List Token) :
    Gives 0 .log ts Expr.inventory (logarithm c deeper name bars ts) := by
  rw [logarithm]
  split
  · next ht =>
    cases ts with
    | nil => exact absurd ht (current_nil hc _ (by simp))
    | cons t ts =>
      rw [current_cons] at ht
      have hnext : Token.Stage.log.next t.kind = .base := by rw [ht]; rfl
      apply Gives.take rfl (by rw [Token.inventory, ht]) hnext
      apply (gives_logBase hd hc ts).bind
      intro base us _
      apply (gives_builtinCall hd hc .log (some base) name us).of_eq
      rw [Option.toList_some, Expr.inventoryAll_singleton, add_zero, zero_add]
  · next ht =>
    apply Gives.restage (stock_log ht)
    exact gives_builtinCall hd hc .log none name ts

theorem gives_rootIndex (ts : List Token) :
    Gives 0 .plain ts (fun index => Expr.inventoryAll index.toList) (rootIndex c deeper ts) := by
  have hindex (b : Bracket) :
      Gives 0 .plain (ts.drop 1) (fun index => Expr.inventoryAll index.toList)
      (enclosed c deeper b (ts.drop 1) >>= fun p => .ok (some p.1, p.2)) := by
    apply (gives_enclosed hd hc b _).bind
    intro e us _
    exact gives_ok (by rw [Option.toList_some, Expr.inventoryAll_singleton, zero_add])
  rw [rootIndex]
  split
  · next ht => exact (hindex .square).behind hc (by rw [ht]; rfl)
  · next ht => exact (hindex .tallSquare).behind hc (by rw [ht]; rfl)
  · exact gives_ok rfl

theorem gives_root (ts : List Token) : Gives 0 .plain ts Expr.inventory (root c deeper ts) := by
  apply (gives_rootIndex hd hc ts).bind
  intro index us _
  apply (gives_braced hd hc us).bind
  intro e vs _
  apply gives_ok
  rw [Expr.inventory_builtin, Expr.inventoryAll_singleton]
  abel

theorem gives_fraction (ts : List Token) :
    Gives (.mark (.operator (.arithmetic .div))) .plain ts Expr.inventory
      (fraction c deeper ts) := by
  apply (gives_braced hd hc ts).bind
  intro numerator us _
  apply (gives_braced hd hc us).bind
  intro denominator vs _
  apply gives_ok
  rw [Expr.inventory_binary, add_assoc]

theorem gives_named (t : Token) (ts : List Token) :
    Gives (.name (Name.ofText t.text)) .plain ts Expr.inventory (named c deeper t ts) := by
  rw [named]
  dsimp only
  split
  · next ht =>
    apply Gives.behind hc (by rw [ht]; rfl)
    apply (gives_arguments hd hc .paren _).bind
    intro args us _
    exact gives_ok (Expr.inventory_call _ args).symm
  · exact gives_ok (Expr.inventory_name _).symm

omit hd hc in
theorem inventory_absolute (e : Expr) : (absolute e).inventory = e.inventory := by
  rw [absolute, Expr.inventory_builtin, Expr.inventoryAll_singleton]
  exact add_zero _

theorem gives_barred (ts : List Token) :
    Gives 0 .plain ts Expr.inventory (barred c deeper bars ts) := by
  apply (hd.expression 0 (bars + 1) false ts).bind
  intro e us _
  exact gives_expect hc .bar rfl (by rw [inventory_absolute, zero_add])

theorem gives_atom (ts : List Token) :
    Gives 0 .plain ts Expr.inventory (atom c deeper bars ts) := by
  cases ts with
  | nil => exact gives_fail _ _
  | cons t ts =>
    rw [atom]
    split
    · next h =>
      have hnext : Token.Stage.plain.next t.kind = .plain := by rw [h]; rfl
      apply Gives.first (by rw [Token.inventory, h]) hnext
      exact gives_ok (Expr.inventory_literal _).symm
    · next h => exact (gives_named hd hc t ts).first (by rw [Token.inventory, h]) (by rw [h]; rfl)
    · next h =>
      apply Gives.skip (by rw [h]; rfl)
      apply (gives_arguments hd hc .square ts).bind
      intro items us _
      exact gives_ok (by rw [Expr.inventory_list, zero_add])
    · next h =>
      apply Gives.skip (by rw [h]; rfl)
      apply (gives_arguments hd hc .tallSquare ts).bind
      intro items us _
      exact gives_ok (by rw [Expr.inventory_list, zero_add])
    · next h =>
      apply Gives.skip (by rw [h]; rfl)
      apply (gives_enclosed hd hc .tallBar ts).bind
      intro e us _
      exact gives_ok (by rw [inventory_absolute, zero_add])
    · next h => exact (gives_enclosed hd hc _ ts).skip (by rw [h]; rfl)
    · next h => exact (gives_barred hd hc ts).skip (by rw [h]; rfl)
    · next h => exact (gives_fraction hd hc ts).first (by rw [Token.inventory, h]) (by rw [h]; rfl)
    · next h => exact (gives_root hd hc ts).first (by rw [Token.inventory, h]) (by rw [h]; rfl)
    · next h =>
      exact (gives_logarithm hd hc t ts).first (by rw [Token.inventory, h]) (by rw [h]; rfl)
    · next g hsqrt hlog h =>
      have hnext : Token.Stage.plain.next t.kind = .plain := by
        rw [h]
        exact Token.next_builtin hlog
      exact (gives_builtinCall hd hc g none t ts).first (by rw [Token.inventory, h]; rfl) hnext
    · exact gives_fail _ _

theorem gives_primary (ts : List Token) :
    Gives 0 .plain ts Expr.inventory (primary c deeper bars ts) := by
  apply (gives_atom hd hc ts).bind
  intro e us _
  exact (gives_factorials e us).of_eq (zero_add _)

theorem gives_signed (ts : List Token) :
    Gives 0 .plain ts Expr.inventory (signed c deeper bars ts) := by
  cases ts with
  | nil =>
    rw [signed, current, List.headD_nil, Token.sign?, hc]
    exact gives_primary hd hc []
  | cons t ts =>
    rw [signed, current_cons]
    split
    · next op hop =>
      apply Gives.first (inventory_sign hop) (Token.next_sign hop)
      apply (hd.expression 15 bars false ts).bind
      intro e us _
      exact gives_ok (Expr.inventory_unary op e).symm
    · exact gives_primary hd hc _

theorem gives_exponentOperand (ts : List Token) :
    Gives 0 .power ts Expr.inventory (exponentOperand c deeper bars ts) := by
  have hsign := sign_spanSigns hc ts
  have hoperand : Gives (signsWorth (spanSigns ts).1) .power (spanSigns ts).2 Expr.inventory
      (exponentOperand c deeper bars ts) := by
    rw [exponentOperand]
    generalize spanSigns ts = p at hsign
    obtain ⟨signs, us⟩ := p
    dsimp only at hsign ⊢
    split
    · next hrun =>
      cases us with
      | nil => simp [current, Token.isDigitRun, hc] at hrun
      | cons t us =>
        refine gives_split (fun digit => signs.foldr Expr.unary (.literal digit)) rfl hrun
          fun digit => ?_
        rw [inventory_signs, Expr.inventory_literal]
    · next hrun =>
      apply Gives.restage (stock_power hsign (by simpa using hrun))
      apply (gives_primary hd hc us).bind
      intro e vs _
      exact gives_ok (inventory_signs signs e).symm
  intro e us he
  obtain ⟨k, hk⟩ := hoperand e us he
  exact ⟨k, by rw [stock_spanSigns, zero_add, hk]⟩

theorem gives_exponentAt (ts : List Token) :
    Gives 0 .power ts Expr.inventory (exponentAt c deeper bars ts) := by
  apply (gives_exponentOperand hd hc ts).bind
  intro base us _
  dsimp only
  split
  · next hpow =>
    refine Gives.behind_power hc hpow ?_ rfl
    apply (hd.exponent bars _).bind
    intro e vs _
    apply gives_ok
    rw [Expr.pow, Expr.inventory_binary]
    abel
  · exact gives_ok (zero_add _)

theorem gives_expressionAt (ts : List Token) :
    Gives 0 .plain ts Expr.inventory (expressionAt c deeper power bars bare ts) := by
  apply (gives_signed hd hc ts).bind
  intro left us _
  exact (gives_operators hd us.length left us).of_eq (zero_add _)

end

theorem level_gives (hc : c.done.kind = .done) (n : Nat) : (level c n).Gives := by
  induction n with
  | zero => exact ⟨fun _ _ _ _ => gives_fail _ _, fun _ _ => gives_fail _ _⟩
  | succ n ih => exact ⟨fun _ _ _ => gives_expressionAt ih hc, fun _ => gives_exponentAt ih hc⟩

end Parser

namespace Expr

/-- Parsing loses no literal, name or operator of the source and makes none up, apart from
products. -/
theorem parse_conserves {source : String} {limit : Int} {e : Expr}
    (h : parse source limit = .ok e) :
    ∃ tokens, Token.tokenize source = .ok tokens ∧ e.Conserves (Token.cutRuns .plain tokens) := by
  obtain ⟨tokens, htokens, h⟩ := Parser.exists_of_bind h
  refine ⟨tokens, htokens, ?_⟩
  obtain ⟨body, pos, pos', rest, hscans, -, rfl⟩ := Token.tokenize_eq_ok htokens
  have hread := (ofTokens_eq_ok_iff hscans.kind_ne_done rfl source limit e).mp h
  obtain ⟨k, hk⟩ := (Parser.level_gives rfl limit.toNat).expression 0 0 false body e [] hread
  have hstock : Token.stock .plain (body ++ [Token.endToken pos']) = Token.stock .plain body := by
    rw [Token.stock, Token.cutRuns_concat rfl, List.map_append, List.sum_append]
    exact add_zero _
  apply conserves_of_inventory (k := k)
  rw [zero_add, Token.stock_nil, add_zero] at hk
  exact (congrArg (· + k • Parser.productMark) hstock).trans hk

theorem definition_conserves : ∃ e, parse "f(x)=x^-23-\\log_28/|y|!" 16 = .ok e ∧
    ∃ tokens, Token.tokenize "f(x)=x^-23-\\log_28/|y|!" = .ok tokens ∧
      e.Conserves (Token.cutRuns .plain tokens) := by
  have hok : (parse "f(x)=x^-23-\\log_28/|y|!" 16).isOk = true := by decide +kernel
  cases h : parse "f(x)=x^-23-\\log_28/|y|!" 16 with
  | error stop =>
    rw [h] at hok
    cases hok
  | ok e => exact ⟨e, rfl, parse_conserves h⟩

end Expr

end UnitSheet
