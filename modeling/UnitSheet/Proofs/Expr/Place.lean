import UnitSheet.Expr.Parser
import UnitSheet.Proofs.Token.Respacing

namespace UnitSheet

open Token (Same)

namespace Token

variable {t t' : Token}

theorem Same.sign?_eq (h : Same t t') : t'.sign? = t.sign? := by
  rw [sign?, sign?, h.kind]

theorem Same.isDigitRun_eq (h : Same t t') : t'.isDigitRun = t.isDigitRun := by
  rw [isDigitRun, isDigitRun, h.kind, h.text]

theorem Same.literal_eq (h : Same t t') : t'.literal = t.literal := by
  rw [literal, literal, h.text, h.value, h.dimension, h.figures]

end Token

/-- Computations that stop for the same reason. -/
def Stop.Same : Stop → Stop → Prop
  | .failure (.parse e), .failure (.parse e') => e'.cause = e.cause
  | .fault f, .fault f' => f' = f
  | _, _ => False

namespace Parser

variable {α β γ δ : Type} {R : α → β → Prop} {S : γ → δ → Prop} {r : Except Stop α}
variable {r' : Except Stop β}
variable {f : α → Except Stop γ} {f' : β → Except Stop δ} {c c' : Context} {deeper deeper' : Level}
variable {ts ts' : List Token} {t t' : Token} {bars power : Nat} {bare : Bool}

/-- Two readings give something that is related, or stop for the same reason. -/
def Agrees (R : α → β → Prop) : Except Stop α → Except Stop β → Prop
  | .ok a, .ok b => R a b
  | .error e, .error e' => e.Same e'
  | _, _ => False

structure Context.Same (c c' : Context) : Prop where
  limit : c'.limit = c.limit
  done : Token.Same c.done c'.done

def Leaves (p p' : α × List Token) : Prop := p.1 = p'.1 ∧ List.Forall₂ Same p.2 p'.2

/-- Readers that do not tell the same tokens apart. -/
def Matches (reader reader' : Reader α) : Prop :=
  ∀ ts ts', List.Forall₂ Same ts ts' → Agrees Leaves (reader ts) (reader' ts')

structure Level.Matches (deeper deeper' : Level) : Prop where
  expression : ∀ power bars bare, Parser.Matches (deeper.expression power bars bare)
    (deeper'.expression power bars bare)
  exponent : ∀ bars, Parser.Matches (deeper.exponent bars) (deeper'.exponent bars)

theorem Agrees.bind (h : Agrees R r r') (hf : ∀ a b, R a b → Agrees S (f a) (f' b)) :
    Agrees S (r >>= f) (r' >>= f') := by
  cases r with
  | ok a =>
    cases r' with
    | ok b => exact hf a b h
    | error e => exact h.elim
  | error e =>
    cases r' with
    | ok b => exact h.elim
    | error e' => exact h

/-- What is read first is the same, and so is what remains for the reader behind it. -/
theorem Agrees.read {r r' : Except Stop (α × List Token)} {f : α × List Token → Except Stop γ}
    {f' : α × List Token → Except Stop δ} (h : Agrees Leaves r r')
    (hf : ∀ a ts ts', List.Forall₂ Same ts ts' → Agrees S (f (a, ts)) (f' (a, ts'))) :
    Agrees S (r >>= f) (r' >>= f') := by
  apply h.bind
  rintro ⟨a, ts⟩ ⟨_, ts'⟩ ⟨rfl, h⟩
  exact hf a ts ts' h

theorem agrees_ite {p : Prop} [Decidable p] {x y : Except Stop α} {x' y' : Except Stop β}
    (hx : Agrees R x x') (hy : Agrees R y y') :
    Agrees R (if p then x else y) (if p then x' else y') := by
  split
  · exact hx
  · exact hy

theorem agrees_fail (cause : ParseError.Cause) (t t' : Token) :
    Agrees R (fail c cause t) (fail c' cause t') :=
  rfl

theorem same_current (hc : c.Same c') (h : List.Forall₂ Same ts ts') :
    Same (current c ts) (current c' ts') := by
  cases h with
  | nil => exact hc.done
  | cons ht => exact ht

theorem same_drop (h : List.Forall₂ Same ts ts') : List.Forall₂ Same (ts.drop 1) (ts'.drop 1) :=
  List.forall₂_drop 1 h

theorem agrees_split (h : Same t t') :
    Agrees (fun p p' => p.1 = p'.1 ∧ Same p.2 p'.2) (split t) (split t') := by
  rw [split, split, Token.splitDigit, Token.splitDigit, h.text]
  cases numeralValue (t.text.toList.drop 1) with
  | error e => rfl
  | ok rest =>
    cases numeralValue (t.text.toList.take 1) with
    | error e => rfl
    | ok first => exact ⟨rfl, rfl, rfl, rfl, rfl, rfl⟩

theorem agrees_expect (hc : c.Same c') (kind : Token.Kind) (h : List.Forall₂ Same ts ts') :
    Agrees (List.Forall₂ Same) (expect c kind ts) (expect c' kind ts') := by
  have hcurrent := same_current hc h
  rw [expect, expect, hcurrent.kind, hcurrent.text]
  exact agrees_ite (same_drop h) rfl

theorem leaves_factorials (e : Expr) (h : List.Forall₂ Same ts ts') :
    Leaves (factorials e ts) (factorials e ts') := by
  induction h generalizing e with
  | nil => exact ⟨rfl, .nil⟩
  | cons ht h ih =>
    rw [factorials, factorials, ht.kind]
    split
    · exact ih _
    · exact ⟨rfl, .cons ht h⟩

theorem leaves_spanSigns (h : List.Forall₂ Same ts ts') :
    Leaves (spanSigns ts) (spanSigns ts') := by
  induction h with
  | nil => exact ⟨rfl, .nil⟩
  | cons ht h ih =>
    rw [spanSigns, spanSigns, ht.sign?_eq]
    split
    · exact ⟨congrArg (List.cons _) ih.1, ih.2⟩
    · exact ⟨rfl, .cons ht h⟩

theorem agrees_assignment (target value : Expr) (t t' : Token) :
    Agrees Eq (assignment c target value t) (assignment c' target value t') := by
  cases target with
  | name x => rfl
  | call g args =>
    rw [assignment, assignment]
    split
    · exact agrees_ite rfl rfl
    · rfl
  | _ => rfl

section
variable (hc : c.Same c') (hd : deeper.Matches deeper')
include hd

theorem matches_moreArguments (fuel : Nat) :
    Matches (moreArguments deeper fuel) (moreArguments deeper' fuel) := by
  intro ts ts' h
  induction fuel generalizing ts ts' with
  | zero => exact ⟨rfl, h⟩
  | succ fuel ih =>
    cases h with
    | nil => exact ⟨rfl, .nil⟩
    | cons ht h =>
      rw [moreArguments, moreArguments, ht.kind]
      refine agrees_ite ?_ ⟨rfl, .cons ht h⟩
      apply (hd.expression 0 0 false _ _ h).read
      intro e ts ts' h
      apply (ih ts ts' h).read
      intro es ts ts' h
      exact ⟨rfl, h⟩

include hc

theorem matches_enclosed (b : Bracket) : Matches (enclosed c deeper b) (enclosed c' deeper' b) := by
  intro ts ts' h
  apply (hd.expression 0 0 false ts ts' h).read
  intro e ts ts' h
  exact (agrees_expect hc _ h).bind fun _ _ h => ⟨rfl, h⟩

theorem matches_braced : Matches (braced c deeper) (braced c' deeper') := by
  intro ts ts' h
  have ht := same_current hc h
  rw [braced, braced, ht.kind, ht.text]
  exact agrees_ite (matches_enclosed hc hd .brace _ _ (same_drop h)) rfl

theorem matches_arguments (b : Bracket) :
    Matches (arguments c deeper b) (arguments c' deeper' b) := by
  intro ts ts' h
  rw [arguments, arguments, (same_current hc h).kind]
  refine agrees_ite ⟨rfl, same_drop h⟩ ?_
  apply (hd.expression 0 0 false ts ts' h).read
  intro e ts ts' h
  dsimp only
  rw [← h.length_eq]
  apply (matches_moreArguments hd ts.length ts ts' h).read
  intro es ts ts' h
  exact (agrees_expect hc _ h).bind fun _ _ h => ⟨rfl, h⟩

omit hd in
theorem parentheses?_eq (h : List.Forall₂ Same ts ts') :
    parentheses? c' ts' = parentheses? c ts := by
  rw [parentheses?, parentheses?, (same_current hc h).kind]

theorem matches_builtinArguments (k : Builtin) (name name' : Token) :
    Matches (builtinArguments c deeper k name bars) (builtinArguments c' deeper' k name' bars) := by
  intro ts ts' h
  rw [builtinArguments, builtinArguments, parentheses?_eq hc h, (same_current hc h).kind]
  split
  · apply (matches_arguments hc hd _ _ _ (same_drop h)).read
    intro args ts ts' h
    exact agrees_ite ⟨rfl, h⟩ rfl
  · refine agrees_ite rfl (agrees_ite rfl ?_)
    apply (hd.expression 19 bars true ts ts' h).read
    intro e ts ts' h
    exact ⟨rfl, h⟩

theorem matches_powerSuffix :
    Matches (powerSuffix c deeper bars) (powerSuffix c' deeper' bars) := by
  intro ts ts' h
  rw [powerSuffix, powerSuffix, (same_current hc h).kind]
  refine agrees_ite ?_ ⟨rfl, h⟩
  apply (hd.exponent bars _ _ (same_drop h)).read
  intro e ts ts' h
  exact ⟨rfl, h⟩

theorem matches_builtinCall (k : Builtin) (special : Option Expr) (name name' : Token) :
    Matches (builtinCall c deeper k special name bars)
      (builtinCall c' deeper' k special name' bars) := by
  intro ts ts' h
  apply (matches_powerSuffix hc hd ts ts' h).read
  intro exponent ts ts' h
  apply (matches_builtinArguments hc hd k name name' ts ts' h).read
  intro args ts ts' h
  exact ⟨rfl, h⟩

theorem matches_logBase : Matches (logBase c deeper) (logBase c' deeper') := by
  intro ts ts' h
  have ht := same_current hc h
  rw [logBase, logBase]
  dsimp only
  rw [ht.kind, ht.isDigitRun_eq, ht.literal_eq]
  split
  · exact matches_enclosed hc hd .brace _ _ (same_drop h)
  · refine agrees_ite ?_ ⟨rfl, same_drop h⟩
    apply (agrees_split ht).bind
    rintro ⟨digit, rest⟩ ⟨_, rest'⟩ ⟨rfl, hrest⟩
    exact ⟨rfl, .cons hrest (same_drop h)⟩
  · rfl

theorem matches_logarithm (name name' : Token) :
    Matches (logarithm c deeper name bars) (logarithm c' deeper' name' bars) := by
  intro ts ts' h
  rw [logarithm, logarithm, (same_current hc h).kind]
  refine agrees_ite ?_ (matches_builtinCall hc hd .log none name name' ts ts' h)
  apply (matches_logBase hc hd _ _ (same_drop h)).read
  intro base ts ts' h
  exact matches_builtinCall hc hd .log (some base) name name' ts ts' h

theorem matches_rootIndex : Matches (rootIndex c deeper) (rootIndex c' deeper') := by
  intro ts ts' h
  have hindex (b : Bracket) : Agrees Leaves
      (do
        let p ← enclosed c deeper b (ts.drop 1)
        return (some p.1, p.2))
      (do
        let p ← enclosed c' deeper' b (ts'.drop 1)
        return (some p.1, p.2)) := by
    apply (matches_enclosed hc hd b _ _ (same_drop h)).read
    intro e ts ts' h
    exact ⟨rfl, h⟩
  rw [rootIndex, rootIndex, (same_current hc h).kind]
  split
  · exact hindex .square
  · exact hindex .tallSquare
  · exact ⟨rfl, h⟩

theorem matches_root : Matches (root c deeper) (root c' deeper') := by
  intro ts ts' h
  apply (matches_rootIndex hc hd ts ts' h).read
  intro index ts ts' h
  apply (matches_braced hc hd ts ts' h).read
  intro e ts ts' h
  exact ⟨rfl, h⟩

theorem matches_fraction : Matches (fraction c deeper) (fraction c' deeper') := by
  intro ts ts' h
  apply (matches_braced hc hd ts ts' h).read
  intro numerator ts ts' h
  apply (matches_braced hc hd ts ts' h).read
  intro denominator ts ts' h
  exact ⟨rfl, h⟩

theorem matches_named (ht : Same t t') : Matches (named c deeper t) (named c' deeper' t') := by
  intro ts ts' h
  rw [named, named, ht.text]
  dsimp only
  rw [(same_current hc h).kind]
  refine agrees_ite ?_ ⟨rfl, h⟩
  apply (matches_arguments hc hd .paren _ _ (same_drop h)).read
  intro args ts ts' h
  exact ⟨rfl, h⟩

theorem matches_barred : Matches (barred c deeper bars) (barred c' deeper' bars) := by
  intro ts ts' h
  apply (hd.expression 0 (bars + 1) false ts ts' h).read
  intro e ts ts' h
  exact (agrees_expect hc .bar h).bind fun _ _ h => ⟨rfl, h⟩

theorem matches_atom : Matches (atom c deeper bars) (atom c' deeper' bars) := by
  intro ts ts' h
  have hlist (b : Bracket) {us us' : List Token} (h : List.Forall₂ Same us us') : Agrees Leaves
      (do
        let p ← arguments c deeper b us
        return (Expr.list p.1, p.2))
      (do
        let p ← arguments c' deeper' b us'
        return (Expr.list p.1, p.2)) := by
    apply (matches_arguments hc hd b _ _ h).read
    intro items ts ts' h
    exact ⟨rfl, h⟩
  cases h with
  | nil => rfl
  | cons ht h =>
    rw [atom, atom, ht.kind, ht.literal_eq, ht.text]
    split
    · exact ⟨rfl, h⟩
    · exact matches_named hc hd ht _ _ h
    · exact hlist .square h
    · exact hlist .tallSquare h
    · apply (matches_enclosed hc hd .tallBar _ _ h).read
      intro e ts ts' h
      exact ⟨rfl, h⟩
    · exact matches_enclosed hc hd _ _ _ h
    · exact matches_barred hc hd _ _ h
    · exact matches_fraction hc hd _ _ h
    · exact matches_root hc hd _ _ h
    · exact matches_logarithm hc hd _ _ _ _ h
    · exact matches_builtinCall hc hd _ none _ _ _ _ h
    · rfl

theorem matches_primary : Matches (primary c deeper bars) (primary c' deeper' bars) := by
  intro ts ts' h
  apply (matches_atom hc hd ts ts' h).read
  intro e ts ts' h
  exact leaves_factorials e h

theorem matches_signed : Matches (signed c deeper bars) (signed c' deeper' bars) := by
  intro ts ts' h
  rw [signed, signed, (same_current hc h).sign?_eq]
  split
  · apply (hd.expression 15 bars false _ _ (same_drop h)).read
    intro e ts ts' h
    exact ⟨rfl, h⟩
  · exact matches_primary hc hd ts ts' h

theorem matches_exponentOperand :
    Matches (exponentOperand c deeper bars) (exponentOperand c' deeper' bars) := by
  intro ts ts' h
  have hsigns := leaves_spanSigns h
  rw [exponentOperand, exponentOperand]
  generalize spanSigns ts = p at hsigns
  generalize spanSigns ts' = p' at hsigns
  obtain ⟨signs, ts⟩ := p
  obtain ⟨_, ts'⟩ := p'
  obtain ⟨rfl, h⟩ := hsigns
  dsimp only at h ⊢
  have ht := same_current hc h
  rw [ht.isDigitRun_eq]
  apply agrees_ite
  · apply (agrees_split ht).bind
    rintro ⟨digit, rest⟩ ⟨_, rest'⟩ ⟨rfl, hrest⟩
    exact ⟨rfl, .cons hrest (same_drop h)⟩
  · apply (matches_primary hc hd ts ts' h).read
    intro e ts ts' h
    exact ⟨rfl, h⟩

theorem matches_exponentAt : Matches (exponentAt c deeper bars) (exponentAt c' deeper' bars) := by
  intro ts ts' h
  apply (matches_exponentOperand hc hd ts ts' h).read
  intro base ts ts' h
  dsimp only
  rw [(same_current hc h).kind]
  refine agrees_ite ?_ ⟨rfl, h⟩
  apply (hd.exponent bars _ _ (same_drop h)).read
  intro e ts ts' h
  exact ⟨rfl, h⟩

omit hc in
theorem matches_operators (fuel : Nat) (left : Expr) :
    Matches (operators c deeper power bars bare fuel left)
      (operators c' deeper' power bars bare fuel left) := by
  intro ts ts' h
  induction fuel generalizing left ts ts' with
  | zero => exact ⟨rfl, h⟩
  | succ fuel ih =>
    cases h with
    | nil => exact ⟨rfl, .nil⟩
    | cons ht h =>
      have hts := List.Forall₂.cons ht h
      rw [operators, operators, ht.kind]
      split
      · refine agrees_ite ⟨rfl, hts⟩ ?_
        apply (hd.exponent bars _ _ h).read
        intro right ts ts' h
        exact ih _ ts ts' h
      · refine agrees_ite ⟨rfl, hts⟩ ?_
        apply (hd.expression _ bars false _ _ h).read
        intro right ts ts' h
        exact ih _ ts ts' h
      · refine agrees_ite ⟨rfl, hts⟩ ?_
        apply (hd.expression 1 bars false _ _ h).read
        intro value ts ts' h
        apply (agrees_assignment left value _ _).bind
        rintro e _ rfl
        exact ih e ts ts' h
      · refine agrees_ite ?_ ⟨rfl, hts⟩
        apply (hd.expression 21 bars false _ _ hts).read
        intro right ts ts' h
        exact ih _ ts ts' h

theorem matches_expressionAt :
    Matches (expressionAt c deeper power bars bare) (expressionAt c' deeper' power bars bare) := by
  intro ts ts' h
  apply (matches_signed hc hd ts ts' h).read
  intro left ts ts' h
  dsimp only
  rw [← h.length_eq]
  exact matches_operators hd ts.length left ts ts' h

omit hd in
theorem matches_level (n : Nat) : (level c n).Matches (level c' n) := by
  induction n with
  | zero =>
    have hfail (t t' : Token) :
        Agrees Leaves (fail c (.nestedTooDeep c.limit) t : Except Stop (Expr × List Token))
          (fail c' (.nestedTooDeep c'.limit) t') := by
      rw [hc.limit]
      exact agrees_fail _ t t'
    exact ⟨fun _ _ _ _ _ _ => hfail _ _, fun _ _ _ _ => hfail _ _⟩
  | succ n ih =>
    exact ⟨fun _ _ _ => matches_expressionAt hc ih, fun _ => matches_exponentAt hc ih⟩

end

theorem same_getLast? (h : List.Forall₂ Same ts ts') :
    Option.Rel Same ts.getLast? ts'.getLast? := by
  induction h with
  | nil => exact .none
  | cons ht h ih =>
    rw [List.getLast?_cons, List.getLast?_cons]
    cases h with
    | nil => exact .some ht
    | cons hu h =>
      rw [List.getLast?_cons, List.getLast?_cons] at ih ⊢
      exact ih

theorem same_find?_done (h : List.Forall₂ Same ts ts') :
    Option.Rel Same (ts.find? (·.kind = .done)) (ts'.find? (·.kind = .done)) := by
  induction h with
  | nil => exact .none
  | cons ht h ih =>
    rw [List.find?_cons, List.find?_cons, ht.kind]
    split
    · exact .some ht
    · exact ih

theorem same_takeWhile (h : List.Forall₂ Same ts ts') :
    List.Forall₂ Same (ts.takeWhile (·.kind ≠ .done)) (ts'.takeWhile (·.kind ≠ .done)) := by
  induction h with
  | nil => exact .nil
  | cons ht h ih =>
    rw [List.takeWhile_cons, List.takeWhile_cons, ht.kind]
    split
    · exact .cons ht ih
    · exact .nil

/-- The same tokens make up the same expression, from whatever sources and at whatever places they
are. -/
theorem agrees_ofTokens (h : List.Forall₂ Same ts ts') (source source' : String) (limit : Int) :
    Agrees Eq (Expr.ofTokens ts source limit) (Expr.ofTokens ts' source' limit) := by
  have hlast := same_getLast? h
  have hdone := same_find?_done h
  have hbody := same_takeWhile h
  rw [Expr.ofTokens, Expr.ofTokens]
  generalize ts.getLast? = last at hlast
  generalize ts'.getLast? = last' at hlast
  generalize ts.find? (·.kind = .done) = done at hdone
  generalize ts'.find? (·.kind = .done) = done' at hdone
  cases hlast with
  | none => rfl
  | @some last last' hlast =>
    cases hdone with
    | none => rfl
    | @some done done' hdone =>
      dsimp only
      rw [hlast.kind]
      refine agrees_ite rfl ?_
      have hc : Context.Same ⟨source, limit, done⟩ ⟨source', limit, done'⟩ := ⟨rfl, hdone⟩
      generalize ts.takeWhile (·.kind ≠ .done) = body at hbody
      generalize ts'.takeWhile (·.kind ≠ .done) = body' at hbody
      cases hbody with
      | nil => exact agrees_fail _ done done'
      | cons ht hbody =>
        apply ((matches_level hc limit.toNat).expression 0 0 false _ _ (.cons ht hbody)).read
        intro e rest rest' hrest
        cases hrest with
        | nil => rfl
        | cons hu _ =>
          dsimp only
          rw [hu.text]
          exact agrees_fail _ _ _

end Parser

end UnitSheet
