import UnitSheet.Proofs.Evaluation.Operations
import UnitSheet.Proofs.Expr.Nodes

namespace UnitSheet

open UnitSheet.Expr UnitSheet.Computation

def Expr.isOperation : Expr → Bool
  | literal _ | name _ | binary _ _ _ | unary _ _ | builtin _ _ _ => true
  | _ => false

/-- An expression all of whose nodes are of a kind, and whose names have values of certain shapes,
if they have any. -/
structure Expr.MadeOf (kind : Expr → Bool) (shapes : List Shape) (s : Scope) (b : Bindings)
    (e : Expr) : Prop where
  nodes : ∀ c, e.Contains c → kind c = true
  names : ∀ x ∈ e.names, ∀ v ∈ s.get? b x, v.shape ∈ shapes

/-- How a value comes from values of the operands, where names have the values `ρ`. -/
inductive Expr.Yields (ρ : String → Option Value) (operand : Expr → Value → Prop) :
    Expr → Value → Prop
  | literal {l : Literal} : Yields ρ operand (.literal l) (.scalar l.quantity)
  | name {x : String} {v : Value} (hx : ρ x = some v) : Yields ρ operand (.name x) v
  | binary {op : BinaryOp} {left right : Expr} {v w u : Value} (hl : operand left v)
      (hr : operand right w)
      (h : Value.binary op v w = .ok u) : Yields ρ operand (.binary op left right) u
  | unary {op : UnaryOp} {e : Expr} {v u : Value} (he : operand e v)
      (h : Value.unary op v = .ok u) : Yields ρ operand (.unary op e) u
  | builtin {f : Builtin} {args : List Expr} {special : Option Expr} {vs : List Value}
      {w : Option Value} {u : Value}
      (ha : List.Forall₂ operand args vs) (hs : Option.Rel operand special w)
        (h : f.apply vs w = .ok u) :
      Yields ρ operand (.builtin f args special) u

variable {s : Scope} {b b' : Bindings} {e c : Expr} {v : Value} {n : Nat} {P : Expr → Value → Prop}
variable {kind : Expr → Bool} {shapes : List Shape}

namespace Expr.MadeOf

theorem self (he : MadeOf kind shapes s b e) : kind e = true := he.nodes e .refl

theorem child (he : MadeOf kind shapes s b e) (hkind : kind e = true → e.isOperation = true)
    (hc : c ∈ e.children) : MadeOf kind shapes s b c where
  nodes d hd := he.nodes d (.head hc hd)
  names x hx := by
    have hbinders : e.binders = [] := by
      cases e with
      | define => cases hkind he.self
      | _ => rfl
    exact he.names x (mem_names.mpr (.child hc (hbinders ▸ List.not_mem_nil) (mem_names.mp hx)))

theorem shape_mem {x : String} (he : MadeOf kind shapes s b (.name x)) (hx : s.get? b x = some v) :
    v.shape ∈ shapes :=
  he.names x (mem_names.mpr (.head rfl)) v hx

end Expr.MadeOf

theorem Evaluation.lift_eq_ok {r : Except Stop Value} (h : Evaluation.lift r b = (.ok v, b')) :
    r = .ok v ∧ b' = b := by
  obtain ⟨hr, rfl⟩ := Prod.mk.inj h
  exact ⟨hr, rfl⟩

theorem Computation.forall₂_of_mapM {m : Expr → Evaluation Value} {es : List Expr} {vs : List Value}
    (hm : ∀ e ∈ es, ∀ v b', m e b = (.ok v, b') → P e v ∧ b' = b) (h : es.mapM m b = (.ok vs, b')) :
    List.Forall₂ P es vs ∧ b' = b := by
  induction es generalizing vs with
  | nil =>
    cases h
    exact ⟨.nil, rfl⟩
  | cons e es ih =>
    rw [List.mapM_cons] at h
    obtain ⟨v, b₁, hv, h⟩ := bind_eq_ok_iff.mp h
    obtain ⟨ws, b₂, hws, h⟩ := bind_eq_ok_iff.mp h
    cases h
    obtain ⟨hP, rfl⟩ := hm e List.mem_cons_self v b₁ hv
    obtain ⟨hrest, rfl⟩ := ih (fun e he => hm e (List.mem_cons_of_mem _ he)) hws
    exact ⟨.cons hP hrest, rfl⟩

/-- What one operation carries from its operands to its result holds of every result. -/
theorem Expr.evalWithin_induction (hkind : ∀ e, kind e = true → e.isOperation = true)
    (hstep : ∀ e v, MadeOf kind shapes s b e → Yields (s.get? b) P e v → P e v)
    (he : MadeOf kind shapes s b e) (h : evalWithin n s e b = (.ok v, b')) : P e v ∧ b' = b := by
  induction n generalizing e v b' with
  | zero => cases h
  | succ n ih =>
    have hoperand (c : Expr) (hc : c ∈ e.children) (w : Value) (b₁ : Bindings) :
        evalWithin n s c b = (.ok w, b₁) → P c w ∧ b₁ = b :=
      ih (he.child (hkind e) hc)
    suffices hy : Yields (s.get? b) P e v ∧ b' = b from ⟨hstep e v he hy.1, hy.2⟩
    cases e with
    | literal l =>
      cases h
      exact ⟨.literal, rfl⟩
    | name x =>
      obtain ⟨hx, rfl⟩ := Evaluation.lookup_eq_ok h
      exact ⟨.name hx, rfl⟩
    | binary op left right =>
      rw [evalWithin, bind_eq_ok_iff] at h
      obtain ⟨w₁, b₁, hl, h⟩ := h
      obtain ⟨hleft, rfl⟩ := hoperand left (by simp [children]) w₁ b₁ hl
      rw [bind_eq_ok_iff] at h
      obtain ⟨w₂, b₂, hr, h⟩ := h
      obtain ⟨hright, rfl⟩ := hoperand right (by simp [children]) w₂ b₂ hr
      obtain ⟨hu, rfl⟩ := Evaluation.lift_eq_ok h
      exact ⟨.binary hleft hright hu, rfl⟩
    | unary op operand =>
      rw [evalWithin, bind_eq_ok_iff] at h
      obtain ⟨w, b₁, hrun, h⟩ := h
      obtain ⟨hw, rfl⟩ := hoperand operand (by simp [children]) w b₁ hrun
      obtain ⟨hu, rfl⟩ := Evaluation.lift_eq_ok h
      exact ⟨.unary hw hu, rfl⟩
    | builtin f args special =>
      rw [evalWithin, bind_eq_ok_iff] at h
      obtain ⟨vs, b₁, ha, h⟩ := h
      obtain ⟨hargs, rfl⟩ := forall₂_of_mapM (fun c hc => hoperand c (List.mem_append_left _ hc)) ha
      rw [bind_eq_ok_iff] at h
      obtain ⟨w, b₂, hs, h⟩ := h
      obtain ⟨hu, rfl⟩ := Evaluation.lift_eq_ok h
      cases special with
      | none =>
        cases hs
        exact ⟨.builtin hargs .none hu, rfl⟩
      | some operand =>
        obtain ⟨w, b₃, hrun, h⟩ := bind_eq_ok_iff.mp hs
        cases h
        obtain ⟨hw, rfl⟩ := hoperand operand (by simp [children]) w _ hrun
        exact ⟨.builtin hargs (.some hw) hu, rfl⟩
    | _ => cases hkind _ he.self

end UnitSheet
