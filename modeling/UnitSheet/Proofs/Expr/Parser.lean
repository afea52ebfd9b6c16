import UnitSheet.Proofs.Expr.Asking

namespace UnitSheet.Parser

variable {α β : Type} {Q : α → Prop} {R : β → Prop} {r : Except Stop α} {f : α → Except Stop β}
variable {I : List Token → Prop} {c : Context} {deeper : Level}

/-- A reading does not break down and fails by an error of the parser only, and what it gives has a
property. -/
def Reads (Q : α → Prop) : Except Stop α → Prop
  | .ok a => Q a
  | .error (.failure (.parse _)) => True
  | .error _ => False

theorem Reads.bind (h : Reads Q r) (hf : ∀ a, Q a → Reads R (f a)) : Reads R (r >>= f) := by
  cases r with
  | ok a => exact hf a h
  | error e => rcases e with (e | e | e) | e <;> exact h

theorem Reads.not_fault (h : Reads Q r) (e : Fault) : r ≠ .error (.fault e) := by
  intro hr
  rw [hr] at h
  exact h

theorem Reads.parse_error {stop : Stop} (h : Reads Q r) (hr : r = .error stop) :
    ∃ e, stop = .failure (.parse e) := by
  rw [hr] at h
  rcases stop with (e | e | e) | e
  · exact h.elim
  · exact ⟨e, rfl⟩
  · exact h.elim
  · exact h.elim

/-- A property of the remaining tokens that dropping and splitting keep. -/
structure Lasting (I : List Token → Prop) : Prop where
  tail : ∀ t ts, I (t :: ts) → I ts
  split : ∀ t ts, I (t :: ts) → t.isDigitRun = true →
    ∃ digit rest, t.splitDigit = .ok (digit, rest) ∧ I (rest :: ts)

theorem Lasting.closed (hI : Lasting I) : Closed fun _ => I where
  next _ t ts h _ := hI.tail t ts h
  rest := by
    intro _ t ts digit rest h _ hrun hsplit
    obtain ⟨digit', rest', hsplit', hrest⟩ := hI.split t ts h hrun
    cases hsplit.symm.trans hsplit'
    exact hrest
  plain _ _ h _ := h

theorem Lasting.blames (hI : Lasting I) :
    Blames c (fun _ => I) (fun _ => True) fun stop => Reads (fun _ : Expr × List Token => True)
      (.error stop) where
  own := fun _ _ _ _ => trivial
  fault := by
    intro _ t ts f h _ hrun hsplit
    obtain ⟨digit, rest, hsplit', -⟩ := hI.split t ts h hrun
    cases hsplit.symm.trans hsplit'
  done := trivial
  seen := fun _ _ _ _ => trivial

theorem reads_level (hI : Lasting I) (hc : c.done.kind = .done) (n : Nat) (q : Question)
    (hq : I q.tokens) : Reads (fun p => I p.2) ((level c n).answer q) := by
  have hmeets := meets_level hI.closed hI.blames hc (fun _ _ => trivial) n q hq
  cases hr : (level c n).answer q with
  | ok p =>
    rw [hr] at hmeets
    exact hmeets
  | error stop =>
    rw [hr] at hmeets
    rcases stop with (e | e | e) | e <;> exact hmeets

theorem reads_ofTokens {tokens : List Token} (hI : Lasting I)
    (h : I (tokens.takeWhile (·.kind ≠ .done))) (source : String) (limit : Int) :
    Reads (fun _ => True) (Expr.ofTokens tokens source limit) := by
  rw [Expr.ofTokens]
  split
  · next last done _ hdone =>
    have hkind : done.kind = .done := by simpa using List.find?_some hdone
    split
    · trivial
    · dsimp only
      split
      · trivial
      · have hread := reads_level hI (c := ⟨source, limit, done⟩) hkind limit.toNat
          (.expression 0 0 false _) h
        refine hread.bind fun p _ => ?_
        split <;> trivial
  · trivial

end UnitSheet.Parser
