import UnitSheet.Expr.Basic

namespace UnitSheet

namespace BinaryOp

variable {op op' inner o : BinaryOp}

def rank : BinaryOp → Nat
  | comparison _ => 0
  | arithmetic .add | arithmetic .sub => 1
  | arithmetic .mul | arithmetic .div => 2
  | arithmetic .pow => 3

/-- The left operand of `op` may be an operation by `inner`. -/
def HoldsLeft (op inner : BinaryOp) : Prop :=
  op.rank < inner.rank ∨ op.rank = inner.rank ∧ op ≠ .arithmetic .pow

/-- The right operand of `op` may be an operation by `inner`. -/
def HoldsRight (op inner : BinaryOp) : Prop :=
  op.rank < inner.rank ∨ op.rank = inner.rank ∧ op = .arithmetic .pow

theorem rank_le (op : BinaryOp) : op.rank ≤ (arithmetic .pow).rank := by
  rcases op with (_ | _ | _ | _ | _) | _ <;> simp [rank]

theorem eq_pow_of_rank (h : op.rank = (arithmetic .pow).rank) : op = .arithmetic .pow := by
  rcases op with (_ | _ | _ | _ | _) | _
  · exact absurd h (by decide)
  · exact absurd h (by decide)
  · exact absurd h (by decide)
  · exact absurd h (by decide)
  · rfl
  · exact absurd h (by simp [rank])

theorem rank_lt_of_ne_pow (h : op ≠ .arithmetic .pow) : op.rank < (arithmetic .pow).rank :=
  Nat.lt_of_le_of_ne op.rank_le fun he => h (eq_pow_of_rank he)

theorem HoldsLeft.of_rank_le (h : op.HoldsLeft inner) (ho : inner.rank ≤ o.rank) :
    op.HoldsLeft o := by
  rcases h with h | ⟨h, hne⟩
  · exact .inl (Nat.lt_of_lt_of_le h ho)
  · rcases Nat.lt_or_eq_of_le ho with ho | ho
    · exact .inl (h ▸ ho)
    · exact .inr ⟨h.trans ho, hne⟩

theorem HoldsRight.of_rank_le (h : op.HoldsRight inner) (ho : inner.rank ≤ o.rank) :
    op.HoldsRight o := by
  rcases h with h | ⟨h, he⟩
  · exact .inl (Nat.lt_of_lt_of_le h ho)
  · rcases Nat.lt_or_eq_of_le ho with ho | ho
    · exact .inl (h ▸ ho)
    · exact .inr ⟨h.trans ho, he⟩

theorem HoldsRight.not_holdsLeft (h : op.HoldsRight op') : ¬ op'.HoldsLeft op := by
  intro h'
  rcases h with h | ⟨h, rfl⟩
  · rcases h' with h' | ⟨h', -⟩
    · exact Nat.lt_asymm h h'
    · exact absurd h' (Nat.ne_of_gt h)
  · rcases h' with h' | ⟨-, h'⟩
    · exact absurd h (Nat.ne_of_gt h')
    · exact h' (eq_pow_of_rank h.symm)

end BinaryOp

namespace Expr

variable {e e' l l' r r' : Expr} {op op' o : BinaryOp}

def root? : Expr → Option BinaryOp
  | binary op _ _ => some op
  | _ => none

/-- Operands and operators from left to right; whatever is no binary operation counts as an
operand. -/
def inorder : Expr → List (Expr ⊕ BinaryOp)
  | binary op left right => left.inorder ++ .inr op :: right.inorder
  | e => [.inl e]

/-- Every binary operation holds its operands. -/
def Grouped : Expr → Prop
  | binary op left right => left.Grouped ∧ right.Grouped ∧
      (∀ o ∈ left.root?, op.HoldsLeft o) ∧ (∀ o ∈ right.root?, op.HoldsRight o)
  | _ => True

theorem inorder_of_root_none (h : e.root? = none) : e.inorder = [.inl e] := by
  cases e with
  | binary => cases h
  | _ => rfl

theorem grouped_of_root_none (h : e.root? = none) : e.Grouped := by
  cases e with
  | binary => cases h
  | _ => trivial

theorem root_mem_inorder (h : o ∈ e.root?) : .inr o ∈ e.inorder := by
  cases e with
  | binary op l r =>
    cases h
    simp [inorder]
  | _ => cases h

theorem Grouped.rank_le (h : e.Grouped) (hop : op ∈ e.root?) (ho : .inr o ∈ e.inorder) :
    op.rank ≤ o.rank := by
  induction e using Expr.inorder.induct generalizing op with
  | case1 op₀ l r ihl ihr =>
    cases hop
    obtain ⟨hl, hr, hleft, hright⟩ := h
    rw [inorder, List.mem_append, List.mem_cons] at ho
    rcases ho with ho | ho | ho
    · cases hroot : l.root? with
      | none =>
        rw [inorder_of_root_none hroot] at ho
        simp at ho
      | some i =>
        have hi := ihl hl hroot ho
        rcases hleft i hroot with h | h <;> omega
    · cases ho
      exact Nat.le_refl _
    · cases hroot : r.root? with
      | none =>
        rw [inorder_of_root_none hroot] at ho
        simp at ho
      | some i =>
        have hi := ihr hr hroot ho
        rcases hright i hroot with h | h <;> omega
  | case2 e hne =>
    cases e with
    | binary op l r => exact absurd rfl (hne op l r)
    | _ => cases hop

theorem exists_root (ho : .inr o ∈ e.inorder) : ∃ i, i ∈ e.root? := by
  cases hroot : e.root? with
  | none =>
    rw [inorder_of_root_none hroot] at ho
    simp at ho
  | some i => exact ⟨i, rfl⟩

theorem Grouped.holdsLeft (h : (binary op l r).Grouped) (ho : .inr o ∈ l.inorder) :
    op.HoldsLeft o := by
  obtain ⟨hl, -, hleft, -⟩ := h
  obtain ⟨i, hi⟩ := exists_root ho
  exact (hleft i hi).of_rank_le (hl.rank_le hi ho)

theorem Grouped.holdsRight (h : (binary op l r).Grouped) (ho : .inr o ∈ r.inorder) :
    op.HoldsRight o := by
  obtain ⟨-, hr, -, hright⟩ := h
  obtain ⟨i, hi⟩ := exists_root ho
  exact (hright i hi).of_rank_le (hr.rank_le hi ho)

theorem inorder_ne_nil (e : Expr) : e.inorder ≠ [] := by
  cases e <;> simp [inorder]

theorem Grouped.same_operands {x : List (Expr ⊕ BinaryOp)} (h : (binary op l r).Grouped)
    (h' : (binary op' l' r').Grouped) (hl : l'.inorder = l.inorder ++ x)
    (hr : .inr op :: r.inorder = x ++ .inr op' :: r'.inorder) :
    l.inorder = l'.inorder ∧ op = op' ∧ r.inorder = r'.inorder := by
  cases x with
  | nil =>
    obtain ⟨hop, hright⟩ := List.cons.inj hr
    exact ⟨by rw [hl, List.append_nil], Sum.inr.inj hop, hright⟩
  | cons i x =>
    obtain ⟨rfl, hright⟩ := List.cons.inj hr
    have hholds : op.HoldsRight op' := h.holdsRight (by simp [hright])
    exact absurd (h'.holdsLeft (by simp [hl])) hholds.not_holdsLeft

/-- There is one grouped tree at most with given operands and operators. -/
theorem Grouped.unique (h : e.Grouped) (h' : e'.Grouped) (heq : e'.inorder = e.inorder) :
    e' = e := by
  have hbinary (op l r) (e : Expr) (he : e.root? = none) : (binary op l r).inorder ≠ e.inorder := by
    rw [inorder_of_root_none he, inorder]
    intro heq
    have hlength := congrArg List.length heq
    have hl := List.length_pos_iff.mpr (inorder_ne_nil l)
    simp only [List.length_append, List.length_cons, List.length_nil] at hlength
    omega
  induction e using Expr.inorder.induct generalizing e' with
  | case1 op l r ihl ihr =>
    cases hroot : e'.root? with
    | none => exact absurd heq.symm (hbinary op l r e' hroot)
    | some op' =>
      obtain ⟨l', r', rfl⟩ : ∃ l' r', e' = binary op' l' r' := by
        cases e' with
        | binary op' l' r' =>
          cases hroot
          exact ⟨l', r', rfl⟩
        | _ => cases hroot
      rw [inorder, inorder] at heq
      have hsame : l.inorder = l'.inorder ∧ op = op' ∧ r.inorder = r'.inorder := by
        rcases List.append_eq_append_iff.mp heq with ⟨x, hl, hr⟩ | ⟨x, hl, hr⟩
        · obtain ⟨hl, hop, hr⟩ := h'.same_operands h hl hr
          exact ⟨hl.symm, hop.symm, hr.symm⟩
        · exact h.same_operands h' hl hr
      obtain ⟨hl, rfl, hr⟩ := hsame
      rw [ihl h.1 h'.1 hl.symm, ihr h.2.1 h'.2.1 hr.symm]
  | case2 e hne =>
    have hroot : e.root? = none := by
      cases e with
      | binary op l r => exact absurd rfl (hne op l r)
      | _ => rfl
    cases hroot' : e'.root? with
    | none =>
      rw [inorder_of_root_none hroot, inorder_of_root_none hroot'] at heq
      simpa using heq
    | some op' =>
      cases e' with
      | binary op' l' r' => exact absurd heq (hbinary op' l' r' e hroot)
      | _ => cases hroot'

end Expr

end UnitSheet
