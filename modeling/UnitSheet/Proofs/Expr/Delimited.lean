import Mathlib.Order.Filter.AtTopBot.Basic
import UnitSheet.Proofs.Expr.Extension

namespace UnitSheet

namespace Parser

variable {c : Context} {deeper : Level} {ts us tail rest : List Token} {s t : Token} {b : Bracket}
variable {bars n : Nat} {e : Expr} {es : List Expr}

/-- The tokens make up an expression by themselves, with some number of levels. -/
structure Whole (ts : List Token) (e : Expr) : Prop where
  kind_ne_done : ∀ t ∈ ts, t.kind ≠ .done
  read : ∃ source limit done, done.kind = .done ∧ Expr.ofTokens (ts ++ [done]) source limit = .ok e

inductive Listed : List Token → List Expr → Prop
  | single {ts : List Token} {e : Expr} (h : Whole ts e) : Listed ts [e]
  | cons {ts us : List Token} {t : Token} {e : Expr} {es : List Expr} (h : Whole ts e)
      (ht : t.kind = .comma) (hs : Listed us es) : Listed (ts ++ t :: us) (e :: es)

def Between (b : Bracket) (ts us : List Token) : Prop :=
  ∃ o s, o.kind = .opening b ∧ s.kind = .closing b ∧ us = o :: (ts ++ [s])

/-- The forms that end with a token of their own. -/
inductive Delimited : List Token → Expr → Prop
  | group {b : Bracket} {ts us : List Token} {e : Expr}
    (hb : b = .paren ∨ b = .brace ∨ b = .tallParen)
      (h : Whole ts e) (hu : Between b ts us) : Delimited us e
  | tallBars {ts us : List Token} {e : Expr} (h : Whole ts e) (hu : Between .tallBar ts us) :
      Delimited us (.builtin .abs [e] none)
  | bars {o s : Token} {ts : List Token} {e : Expr} (ho : o.kind = .bar) (hs : s.kind = .bar)
      (h : Whole ts e)
      (hb : barless 0 ts = true) : Delimited (o :: (ts ++ [s])) (.builtin .abs [e] none)
  | fraction {t : Token} {ts ts' us us' : List Token} {e f : Expr} (ht : t.kind = .fraction)
      (h : Whole ts e)
      (hu : Between .brace ts us) (h' : Whole ts' f) (hu' : Between .brace ts' us') :
      Delimited (t :: (us ++ us')) (.binary (.arithmetic .div) e f)
  | root {t : Token} {b : Bracket} {ts ts' us us' : List Token} {e f : Expr}
      (ht : t.kind = .builtin .sqrt)
      (hb : b = .square ∨ b = .tallSquare) (h : Whole ts e) (hu : Between b ts us)
        (h' : Whole ts' f)
      (hu' : Between .brace ts' us') : Delimited (t :: (us ++ us')) (.builtin .sqrt [f] (some e))
  | list {b : Bracket} {ts us : List Token} {es : List Expr} (hb : b = .square ∨ b = .tallSquare)
      (h : Listed ts es) (hu : Between b ts us) : Delimited us (.list es)
  | builtin {t : Token} {g : Builtin} {b : Bracket} {ts us : List Token} {e : Expr}
      (ht : t.kind = .builtin g)
      (hg : g.arity = 1) (hroot : g ≠ .sqrt) (hb : b = .paren ∨ b = .tallParen) (h : Whole ts e)
      (hu : Between b ts us) : Delimited (t :: us) (.builtin g [e] none)
  | call {t : Token} {ts us : List Token} {es : List Expr} (ht : t.kind = .name) (h : Listed ts es)
      (hu : Between .paren ts us) : Delimited (t :: us) (.call (Name.ofText t.text) es)

theorem Between.exists_delimiters (h : Between b ts us) :
    ∃ o s, o.kind = .opening b ∧ s.kind = .closing b ∧
      ∀ rest, us ++ rest = o :: (ts ++ s :: rest) := by
  obtain ⟨o, s, ho, hs, rfl⟩ := h
  refine ⟨o, s, ho, hs, ?_⟩
  intro rest
  rw [List.cons_append, List.append_assoc, List.singleton_append]

/-- A whole expression is read in front of whatever ends one. -/
theorem Whole.expression (h : Whole ts e) : ∀ᶠ n in Filter.atTop, ∀ c bars tail,
    (bars = 0 ∨ barless 0 ts = true) → Ends bars tail →
      (level c n).expression 0 bars false (ts ++ tail) = .ok (e, tail) := by
  obtain ⟨hkind, source, limit, done, hdone, hr⟩ := h
  have hwhole := (Expr.ofTokens_eq_ok_iff hkind hdone source limit e).mp hr
  filter_upwards [Filter.eventually_ge_atTop limit.toNat] with n hn c bars tail hbars htail
  have hextends : (level ⟨source, limit, done⟩ limit.toNat).Extends (level c n) :=
    level_extends hdone hn
  exact (hextends.expression tail hbars e [] hwhole).2 fun _ => htail

theorem ends_closing (h : s.kind = .closing b) : Ends bars (s :: rest) :=
  ⟨s, rest, rfl, by rw [h]; rfl⟩

theorem expect_cons {kind : Token.Kind} (h : s.kind = kind) :
    expect c kind (s :: rest) = .ok rest :=
  if_pos h

theorem Whole.enclosed (h : Whole ts e) : ∀ᶠ n in Filter.atTop, ∀ c b s rest, s.kind = .closing b →
    enclosed c (level c n) b (ts ++ s :: rest) = .ok (e, rest) := by
  filter_upwards [h.expression] with n hn c b s rest hs
  rw [Parser.enclosed, hn c 0 (s :: rest) (.inl rfl) (ends_closing hs)]
  dsimp only [bind, Except.bind]
  rw [expect_cons hs]
  rfl

theorem Whole.braced (h : Whole ts e) (hu : Between .brace ts us) : ∀ᶠ n in Filter.atTop, ∀ c rest,
    braced c (level c n) (us ++ rest) = .ok (e, rest) := by
  obtain ⟨o, s, ho, hs, happend⟩ := hu.exists_delimiters
  filter_upwards [h.enclosed] with n hn c rest
  rw [happend, Parser.braced, current_cons, if_pos ho, drop_cons]
  exact hn c .brace s rest hs

def listed (deeper : Level) : Reader (List Expr) := fun ts => do
  let (e, us) ← deeper.expression 0 0 false ts
  let (es, vs) ← moreArguments deeper us.length us
  return (e :: es, vs)

theorem moreArguments_comma (hd : deeper.Shortens) (ht : t.kind = .comma) :
    moreArguments deeper (t :: ts).length (t :: ts) = listed deeper ts := by
  rw [List.length_cons, moreArguments, if_pos ht, listed]
  apply bind_congr_ok
  rintro ⟨e, us⟩ hr
  dsimp only
  rw [moreArguments_fuel hd (Nat.le_of_lt (hd.expression hr)) (Nat.le_refl _)]

theorem Listed.listed (h : Listed ts es) : ∀ᶠ n in Filter.atTop, ∀ c b s rest, c.done.kind = .done →
    s.kind = .closing b → listed (level c n) (ts ++ s :: rest) = .ok (es, s :: rest) := by
  induction h with
  | single h =>
    filter_upwards [h.expression] with n hn c b s rest hc hs
    have hmore : moreArguments (level c n) (rest.length + 1) (s :: rest) = .ok ([], s :: rest) :=
      if_neg (by rw [hs]; nofun)
    rw [Parser.listed, hn c 0 _ (.inl rfl) (ends_closing hs)]
    dsimp only [bind, Except.bind]
    rw [List.length_cons, hmore]
    rfl
  | @cons ts us t e es h ht _ ih =>
    filter_upwards [h.expression, ih] with n hn hmore c b s rest hc hs
    have htail : Ends 0 (t :: (us ++ s :: rest)) := ⟨t, _, rfl, by rw [ht]; rfl⟩
    rw [List.append_assoc, List.cons_append, Parser.listed, hn c 0 _ (.inl rfl) htail]
    dsimp only [bind, Except.bind]
    rw [moreArguments_comma (level_shortens hc n) ht, hmore c b s rest hc hs]
    rfl

theorem arguments_eq_listed (h : (current c ts).kind ≠ .closing b) :
    arguments c deeper b ts = listed deeper ts >>= fun p => expect c
      (.closing b) p.2 >>= fun us => .ok (p.1, us) := by
  rw [arguments, if_neg h, listed]
  cases deeper.expression 0 0 false ts with
  | error stop => rfl
  | ok p =>
    dsimp only [bind, Except.bind]
    cases moreArguments deeper p.2.length p.2 <;> rfl

theorem expression_closing (ht : t.kind = .closing b) {power : Nat} {bare : Bool}
    (p : Expr × List Token) : (level c n).expression power bars bare (t :: ts) ≠ .ok p := by
  cases n with
  | zero => nofun
  | succ n =>
    have hsign : t.sign? = none := by rw [Token.sign?, ht]
    have hatom : atom c (level c n) bars (t :: ts) = fail c (.unexpected t.kind t.text) t := by
      rw [atom, ht]
    intro h
    rw [level] at h
    dsimp only at h
    rw [expressionAt, signed, current_cons, hsign] at h
    dsimp only at h
    rw [primary, hatom] at h
    cases h

theorem Listed.arguments (h : Listed ts es) :
    ∀ᶠ n in Filter.atTop, ∀ c b s rest, c.done.kind = .done →
    s.kind = .closing b → arguments c (level c n) b (ts ++ s :: rest) = .ok (es, rest) := by
  filter_upwards [h.listed] with n hn c b s rest hc hs
  have hlisted := hn c b s rest hc hs
  have hclosing : (current c (ts ++ s :: rest)).kind ≠ .closing b := by
    intro ht
    cases hts : ts ++ s :: rest with
    | nil => exact absurd hts (by simp)
    | cons t us =>
      rw [hts] at hlisted
      rw [hts, current_cons] at ht
      obtain ⟨p, hr, -⟩ := exists_of_bind hlisted
      exact expression_closing ht p hr
  rw [arguments_eq_listed hclosing, hlisted]
  dsimp only [bind, Except.bind]
  rw [expect_cons hs]

theorem Whole.rootIndex (h : Whole ts e) (hb : b = .square ∨ b = .tallSquare)
    (hu : Between b ts us) :
    ∀ᶠ n in Filter.atTop, ∀ c rest, rootIndex c (level c n) (us ++ rest) = .ok (some e, rest) := by
  obtain ⟨o, s, ho, hs, happend⟩ := hu.exists_delimiters
  filter_upwards [h.enclosed] with n hn c rest
  have henclosed := hn c b s rest hs
  rw [happend, Parser.rootIndex, current_cons, drop_cons, ho]
  rcases hb with rfl | rfl
  · dsimp only
    rw [henclosed]
    rfl
  · dsimp only
    rw [henclosed]
    rfl

/-- A call of a function of one argument in parentheses. -/
theorem Whole.builtinCall {g : Builtin} (h : Whole ts e) (hg : g.arity = 1)
    (hb : b = .paren ∨ b = .tallParen)
    (hu : Between b ts us) : ∀ᶠ n in Filter.atTop, ∀ c name bars rest, c.done.kind = .done →
      builtinCall c (level c n) g none name bars (us ++ rest) = .ok
        (.builtin g [e] none, rest) := by
  obtain ⟨o, s, ho, hs, happend⟩ := hu.exists_delimiters
  filter_upwards [(Listed.single h).arguments] with n hn c name bars rest hc
  have hpower : powerSuffix c (level c n) bars (o :: (ts ++ s :: rest)) =
      .ok (none, o :: (ts ++ s :: rest)) :=
    if_neg (by rw [current_cons, ho]; nofun)
  have hparentheses : parentheses? c (o :: (ts ++ s :: rest)) = some b := by
    rw [parentheses?, current_cons, ho]
    rcases hb with rfl | rfl <;> rfl
  have hargs : builtinArguments c (level c n) g name bars (o :: (ts ++ s :: rest)) =
      .ok ([e], rest) := by
    rw [builtinArguments, hparentheses]
    dsimp only
    rw [drop_cons, hn c b s rest hc hs]
    exact if_pos hg.symm
  rw [happend, Parser.builtinCall, hpower]
  dsimp only [bind, Except.bind]
  rw [hargs]
  rfl

theorem atom_builtin {g : Builtin} (ht : t.kind = .builtin g) (hroot : g ≠ .sqrt)
    (hsubscript : (current c ts).kind ≠ .subscript) :
    atom c deeper bars (t :: ts) = builtinCall c deeper g none t bars ts := by
  rw [atom, ht]
  cases g with
  | sqrt => exact absurd rfl hroot
  | log => exact if_neg hsubscript
  | _ => rfl

/-- An expression between bars, without bars of its own that would close them. -/
theorem Whole.barred (h : Whole ts e) (hb : barless 0 ts = true) :
    ∀ᶠ n in Filter.atTop, ∀ c bars s rest,
    s.kind = .bar → barred c (level c n) bars (ts ++ s :: rest) = .ok (absolute e, rest) := by
  filter_upwards [h.expression] with n hn c bars s rest hs
  have htail : Ends (bars + 1) (s :: rest) := ⟨s, rest, rfl, by rw [hs]; rfl⟩
  rw [Parser.barred, hn c (bars + 1) _ (.inr hb) htail]
  dsimp only [bind, Except.bind]
  rw [expect_cons hs]
  rfl

/-- A delimited form is read to its tree and no further in any context, with any open bars and
whatever comes behind it, if there are enough levels. -/
theorem Delimited.reads_anywhere (h : Delimited ts e) :
    ∀ᶠ n in Filter.atTop, ∀ c bars rest, c.done.kind = .done →
    atom c (level c n) bars (ts ++ rest) = .ok (e, rest) := by
  cases h with
  | group hb h hu =>
    obtain ⟨o, s, ho, hs, happend⟩ := hu.exists_delimiters
    filter_upwards [h.enclosed] with n hn c bars rest _
    rw [happend, Parser.atom, ho]
    rcases hb with rfl | rfl | rfl <;> exact hn c _ s rest hs
  | tallBars h hu =>
    obtain ⟨o, s, ho, hs, happend⟩ := hu.exists_delimiters
    filter_upwards [h.enclosed] with n hn c bars rest _
    rw [happend, Parser.atom, ho]
    dsimp only
    rw [hn c .tallBar s rest hs]
    rfl
  | @bars o s ts e ho hs h hb =>
    filter_upwards [h.barred hb] with n hn c bars rest _
    rw [List.cons_append, List.append_assoc, Parser.atom, ho]
    exact hn c bars s rest hs
  | fraction ht h hu h' hu' =>
    filter_upwards [h.braced hu, h'.braced hu'] with n hn hn' c bars rest _
    rw [List.cons_append, List.append_assoc, Parser.atom, ht]
    dsimp only
    rw [Parser.fraction, hn c]
    dsimp only [bind, Except.bind]
    rw [hn' c]
    rfl
  | root ht hb h hu h' hu' =>
    filter_upwards [h.rootIndex hb hu, h'.braced hu'] with n hn hn' c bars rest _
    rw [List.cons_append, List.append_assoc, Parser.atom, ht]
    dsimp only
    rw [Parser.root, hn c]
    dsimp only [bind, Except.bind]
    rw [hn' c]
    rfl
  | list hb h hu =>
    obtain ⟨o, s, ho, hs, happend⟩ := hu.exists_delimiters
    filter_upwards [h.arguments] with n hn c bars rest hc
    rw [happend, Parser.atom, ho]
    rcases hb with rfl | rfl
    · dsimp only
      rw [hn c .square s rest hc hs]
      rfl
    · dsimp only
      rw [hn c .tallSquare s rest hc hs]
      rfl
  | @builtin t g b ts us e ht hg hroot hb h hu =>
    obtain ⟨o, s, ho, hs, happend⟩ := hu.exists_delimiters
    filter_upwards [h.builtinCall hg hb hu] with n hn c bars rest hc
    have hsubscript : (current c (us ++ rest)).kind ≠ .subscript := by
      rw [happend, current_cons, ho]
      intro h
      cases h
    rw [List.cons_append, atom_builtin ht hroot hsubscript]
    exact hn c t bars rest hc
  | call ht h hu =>
    obtain ⟨o, s, ho, hs, happend⟩ := hu.exists_delimiters
    filter_upwards [h.arguments] with n hn c bars rest hc
    rw [List.cons_append, happend, Parser.atom, ht]
    dsimp only
    rw [named, current_cons, if_pos ho, drop_cons, hn c .paren s rest hc hs]
    rfl

def innerTokens : List Token :=
  [{ kind := .opening .paren, text := "(", pos := 1 },
   { kind := .bar, text := "|", pos := 2 },
   { kind := .name, text := "x", pos := 3 },
   { kind := .bar, text := "|", pos := 4 },
   { kind := .closing .paren, text := ")", pos := 5 },
   { kind := .name, text := "y", pos := 6 }]

def barsTokens : List Token :=
  { kind := .bar, text := "|", pos := 0 } ::
    (innerTokens ++ [{ kind := .bar, text := "|", pos := 7 }])

theorem bars_reads_anywhere :
    Token.tokenize "|(|x|)y|" = .ok (barsTokens ++ [Token.endToken 8]) ∧
    Delimited barsTokens (absolute ((absolute (.name "x")).mul (.name "y"))) ∧
    ∀ᶠ n in Filter.atTop, ∀ c bars rest, c.done.kind = .done →
      atom c (level c n) bars (barsTokens ++ rest) =
        .ok (absolute ((absolute (.name "x")).mul (.name "y")), rest) := by
  have hwhole : Whole innerTokens ((absolute (.name "x")).mul (.name "y")) :=
    ⟨by decide, "(|x|)y", 4, Token.endToken 7, rfl, rfl⟩
  have hdelimited : Delimited barsTokens (absolute ((absolute (.name "x")).mul (.name "y"))) :=
    .bars rfl rfl hwhole rfl
  exact ⟨rfl, hdelimited, hdelimited.reads_anywhere⟩

end Parser

end UnitSheet
