import UnitSheet.Proofs.Expr.Asking

namespace UnitSheet.Parser

variable {α β : Type} {loose : Stop → Prop} {Q : α → Prop} {R : β → Prop} {r r' : Except Stop α}
variable {f f' : α → Except Stop β} {I K : List Token → Prop} {c : Context} {deeper deeper' : Level}
variable {ts us : List Token} {t : Token} {bars power : Nat} {bare : Bool}

/-- A computation that gives something has a first step that does. -/
theorem exists_of_bind {ε : Type} {r : Except ε α} {f : α → Except ε β} {b : β}
    (h : (r >>= f) = .ok b) : ∃ a, r = .ok a ∧ f a = .ok b := by
  cases r with
  | ok a => exact ⟨a, rfl, h⟩
  | error e => cases h

theorem expect_eq_ok (hc : c.done.kind = .done) (kind : Token.Kind) (hkind : kind ≠ .done)
    (h : expect c kind ts = .ok us) : ∃ t, t.kind = kind ∧ ts = t :: us := by
  rw [expect] at h
  split at h
  · next ht =>
    cases ts with
    | nil => exact absurd ht (current_nil hc kind hkind)
    | cons t ts =>
      cases h
      exact ⟨t, ht, rfl⟩
  · cases h

theorem splitDigit_of_split {p : Literal × Token} (h : split t = .ok p) : t.splitDigit = .ok p := by
  rw [split] at h
  cases hs : t.splitDigit with
  | error e =>
    rw [hs] at h
    cases h
  | ok q =>
    rw [hs] at h
    cases h
    rfl

/-- Both parts of a split are plain numbers. -/
theorem splitDigit_eq_ok {digit : Literal} {rest : Token} (h : t.splitDigit = .ok (digit, rest)) :
    digit = { value := digit.value, text := digit.text } ∧ rest.kind = .number := by
  obtain ⟨v, -, h⟩ := exists_of_bind h
  obtain ⟨w, -, h⟩ := exists_of_bind h
  cases h
  exact ⟨rfl, rfl⟩

theorem pos_of_splitDigit {digit : Literal} {rest : Token} (h : t.splitDigit = .ok (digit, rest)) :
    rest.pos = t.pos + 1 := by
  obtain ⟨v, -, h⟩ := exists_of_bind h
  obtain ⟨w, -, h⟩ := exists_of_bind h
  cases h
  rfl

/-- The second computation gives what the first one gives, which has a property, and stops where the
first one stops, unless for a loose reason. -/
def Follows (loose : Stop → Prop) (Q : α → Prop) : Except Stop α → Except Stop α → Prop
  | .ok a, r' => r' = .ok a ∧ Q a
  | .error e, r' => loose e ∨ r' = .error e

theorem Follows.bind (h : Follows loose Q r r') (hf : ∀ a, Q a → Follows loose R (f a) (f' a)) :
    Follows loose R (r >>= f) (r' >>= f') := by
  cases r with
  | ok a =>
    obtain ⟨rfl, ha⟩ := h
    exact hf a ha
  | error e =>
    rcases h with h | rfl
    · exact .inl h
    · exact .inr rfl

theorem Follows.eq (h : Follows (fun _ => False) Q r r') : r' = r := by
  cases r with
  | ok a => exact h.1
  | error e => exact h.resolve_left id

theorem Follows.of_ok {a : α} (h : Follows loose Q r r') (hr : r = .ok a) : Q a := by
  rw [hr] at h
  exact h.2

theorem follows_fail (cause : ParseError.Cause) (t : Token) :
    Follows loose Q (fail c cause t) (fail c cause t) :=
  .inr rfl

/-- On tokens with one property the readers follow each other and leave tokens with another one. -/
def Tracks (loose : Stop → Prop) (K I : List Token → Prop) (reader reader' : Reader α) : Prop :=
  ∀ ts, K ts → Follows loose (fun p => I p.2) (reader ts) (reader' ts)

structure Level.Tracks (loose : Stop → Prop) (I : List Token → Prop)
    (deeper deeper' : Level) : Prop where
  expression : ∀ power bars bare,
    Parser.Tracks loose I I (deeper.expression power bars bare) (deeper'.expression power bars bare)
  exponent : ∀ bars, Parser.Tracks loose I I (deeper.exponent bars) (deeper'.exponent bars)

theorem Level.Tracks.answer (hd : deeper.Tracks loose I deeper') (q : Question) (hq : I q.tokens) :
    Follows loose (fun p => I p.2) (deeper.answer q) (deeper'.answer q) := by
  cases q with
  | expression power bars bare ts => exact hd.expression power bars bare ts hq
  | exponent bars ts => exact hd.exponent bars ts hq

theorem Level.Tracks.of_answer (h : ∀ q : Question, I q.tokens →
      Follows loose (fun p => I p.2) (deeper.answer q) (deeper'.answer q)) :
    deeper.Tracks loose I deeper' :=
  ⟨fun power bars bare ts => h (.expression power bars bare ts),
    fun bars ts => h (.exponent bars ts)⟩

/-- A conversation takes the same course with readers that answer alike. -/
theorem Asking.follows {E : Stop → Prop} {F : Level → Except Stop α} (h : Asking (fun _ => I) E Q F)
    (hd : deeper.Tracks loose I deeper') : Follows loose Q (F deeper) (F deeper') := by
  induction h with
  | give h => exact ⟨rfl, h⟩
  | stop h => exact .inr rfl
  | ask hq _ ih => exact (hd.answer _ hq).bind ih

theorem blames_all {J : Token.Stage → List Token → Prop} :
    Blames c J (fun _ => True) fun _ => True :=
  ⟨fun _ _ _ _ => trivial, fun _ _ _ _ _ _ _ _ => trivial, trivial, fun _ _ _ _ => trivial⟩

section
variable (hb : Behind (fun _ => K) fun _ => I) (hd : deeper.Tracks loose I deeper')
variable (hc : c.done.kind = .done)
include hb hd hc

theorem tracks_expressionAt :
    Tracks loose K I (expressionAt c deeper power bars bare)
      (expressionAt c deeper' power bars bare) :=
  fun _ h => (asking_expressionAt hb blames_all hc h).follows hd

theorem tracks_exponentAt :
    Tracks loose K K (exponentAt c deeper bars) (exponentAt c deeper' bars) :=
  fun _ h => (asking_exponentAt hb blames_all hc h).follows hd

end

end UnitSheet.Parser
