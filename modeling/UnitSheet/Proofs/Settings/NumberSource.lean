import UnitSheet.Proofs.Expr.Numeral
import UnitSheet.Proofs.Settings.Writing
import UnitSheet.Proofs.Token.Pieces

namespace UnitSheet

variable {c : Char} {more sep : List Char} {ps : List (Token.Kind × String)}

namespace Decimal.Written

open Token (Pieces)

variable (w : Written)

def factor : List Char :=
  match w.exponent with
  | none => []
  | some e => "\\cdot 10^\x7b".toList ++ ((ofInt e).chars ++ ['\x7d'])

def source : List Char := w.sign ++ (w.mantissa ++ w.factor)

theorem exponentOf_exponent (e : Int) : Datum.exponentOf (Notation.exponent e) = .ok e := by
  obtain ⟨ds, hsign, hne, hds, hvalue⟩ := spanSign_exponent e
  obtain ⟨d, ds, rfl⟩ := List.exists_cons_of_ne_nil hne
  rw [Datum.exponentOf, hsign]
  dsimp only
  rw [spanDigits_digits hds]
  change Except.ok
    (if _ then -(natOfDigits (digits (d :: ds)) : Int) else natOfDigits (digits (d :: ds))) = _
  rw [hvalue, signed_natAbs]

theorem powerSource_chars : Datum.powerSource w.chars = .ok (String.ofList w.source) := by
  have hfront : ∀ c ∈ w.sign ++ w.mantissa, decide (c ≠ 'e') = true := by
    intro c hc
    apply decide_eq_true
    rintro rfl
    rcases List.mem_append.mp hc with hc | hc
    · rw [sign] at hc
      split at hc
      · exact absurd (List.mem_singleton.mp hc) (by decide)
      · cases hc
    · rcases w.isDigit_or_point_of_mem_mantissa hc with hc | hc
      · exact absurd hc (by decide)
      · exact absurd hc (by decide)
  rw [Datum.powerSource, chars, ← List.append_assoc, List.dropWhile_append_of_pos hfront,
    List.takeWhile_append_of_pos hfront, source, factor, power]
  cases w.exponent with
  | none =>
    rw [List.append_nil, List.append_nil]
    rfl
  | some e =>
    change (do
      let e ← Datum.exponentOf (Notation.exponent e)
      return String.ofList (w.sign ++ w.mantissa ++ []) ++ "\\cdot 10^\x7b" ++ toString e ++ "\x7d")
        = _
    rw [exponentOf_exponent]
    apply congrArg Except.ok
    apply String.toList_injective
    simp [chars_ofInt]

theorem pieces_mantissa (h : Pieces more ps) (hsep : Token.IsGap sep)
    (hmore : ∀ d ∈ more.head?, Token.isNumeral d = false) :
    Pieces (sep ++ (w.mantissa ++ more)) ((.number, String.ofList w.mantissa) :: ps) := by
  have hmem {c : Char} (hc : c ∈ w.mantissa) := w.isDigit_or_point_of_mem_mantissa hc
  have hcount := w.count_point_mantissa
  obtain ⟨d, ds, hd, hmantissa⟩ := w.exists_mantissa
  rw [hmantissa] at hmem hcount ⊢
  apply h.numeral hsep ?_ ?_ hcount ?_ hmore
  · rintro rfl
    exact absurd hd (by decide)
  · intro c hc
    rcases hmem hc with hdigit | rfl
    · exact Token.isNumeral_of_isDigit hdigit
    · decide +kernel
  · intro c hc hpoint
    rw [Token.decimalDigit?_of_isDigit ((hmem hc).resolve_right hpoint)]
    nofun

def signFaces : List (Token.Kind × String) :=
  if w.negative then [(.operator (.arithmetic .sub), "-")] else []

def factorFaces : List (Token.Kind × String) :=
  match w.exponent with
  | none => []
  | some e => (.operator (.arithmetic .mul), "\\cdot") :: (.number, "10") ::
    (.operator (.arithmetic .pow), "^") :: (.opening .brace, "\x7b") ::
        ((ofInt e).signFaces ++ [(.number, String.ofList (ofInt e).mantissa),
          (.closing .brace, "\x7d")])

def faces : List (Token.Kind × String) := w.signFaces ++ (.number, String.ofList w.mantissa) ::
    w.factorFaces

theorem pieces_sign (h : Pieces more ps) : Pieces (w.sign ++ more) (w.signFaces ++ ps) := by
  rw [sign, signFaces]
  cases w.negative with
  | true => exact h.single rfl
  | false => exact h

theorem pieces_source : Pieces w.source w.faces := by
  rw [source, faces, factor, factorFaces]
  apply w.pieces_sign
  cases w.exponent with
  | none => exact w.pieces_mantissa .nil .nil (by nofun)
  | some e =>
    have hclosed : Pieces ['\x7d'] [(.closing .brace, "\x7d")] := Pieces.nil.single rfl
    have hexponent := (ofInt e).pieces_mantissa hclosed .nil (by rintro _ ⟨⟩; decide +kernel)
    have hgroup := (((ofInt e).pieces_sign hexponent).single (c := '\x7b') rfl).single
      (c := '^') rfl
    have hblank : Token.IsGap [' '] := .blank rfl .nil
    have hten := (ofInt 10).pieces_mantissa hgroup hblank (by rintro _ ⟨⟩; decide +kernel)
    have htimes := hten.times (hblank.parted (List.cons_ne_nil _ _))
    have hall := w.pieces_mantissa htimes .nil (by rintro _ ⟨⟩; decide +kernel)
    have hdigits : (ofInt 10).mantissa = ['1', '0'] := by decide
    have hchars : (ofInt e).chars = (ofInt e).sign ++ (ofInt e).mantissa :=
      congrArg _ (List.append_nil _)
    rw [hdigits] at hall
    dsimp only
    rw [hchars, List.append_assoc]
    exact hall

end Decimal.Written

namespace Decimal.Written

variable (w : Written) {c : Parser.Context} {ts : List Token}

theorem rat?_literal {t : Token} (ht : t.text = String.ofList w.mantissa) :
    (Expr.literal t.literal).rat? = some w.magnitude := by
  have hplain := w.plain.rat?_chars
  rw [chars_plain, value_plain] at hplain
  rw [Expr.rat?, Token.literal, ht, String.toList_ofList, hplain]

theorem exists_sign (h : ts.map Token.face = w.signFaces) : ∃ s, ts = Sign.tokens s ∧
    ∀ (e : Expr) r, e.rat? = some r → (Sign.apply s e).rat? = some
      (if w.negative then -r else r) := by
  rw [signFaces] at h
  cases hnegative : w.negative with
  | false =>
    rw [hnegative] at h
    exact ⟨none, List.map_eq_nil_iff.mp h, fun e r he => he⟩
  | true =>
    rw [hnegative, if_pos rfl] at h
    obtain ⟨t, ts, rfl, ht, hts⟩ := List.map_eq_cons_iff.mp h
    obtain rfl := List.map_eq_nil_iff.mp hts
    have hkind : t.kind = .operator (.arithmetic .sub) := congrArg Prod.fst ht
    refine ⟨some ⟨t, .neg, by rw [Token.sign?, hkind]⟩, rfl, fun e r he => ?_⟩
    rw [Sign.apply, Expr.rat?, he]
    rfl

theorem reads_exponent (hc : c.done.kind = .done) (e : Int)
    (h : ts.map Token.face = (.opening .brace, "\x7b") ::
      ((ofInt e).signFaces ++ [(.number, String.ofList (ofInt e).mantissa),
      (.closing .brace, "\x7d")])) :
    ∃ x : Expr, x.rat? = some (e : ℚ) ∧ ∀ n bars, (Parser.level c (n + 3)).exponent bars ts =
      .ok (x, []) := by
  obtain ⟨u, ts, rfl, hu, h⟩ := List.map_eq_cons_iff.mp h
  obtain ⟨ss, ts, rfl, hss, h⟩ := List.map_eq_append_iff.mp h
  obtain ⟨t, ts, rfl, ht, h⟩ := List.map_eq_cons_iff.mp h
  obtain ⟨v, ts, rfl, hv, h⟩ := List.map_eq_cons_iff.mp h
  obtain rfl := List.map_eq_nil_iff.mp h
  obtain ⟨s, rfl, hexact⟩ := (ofInt e).exists_sign hss
  have htkind : t.kind = .number := congrArg Prod.fst ht
  have hvkind : v.kind = .closing .brace := congrArg Prod.fst hv
  have hparts : Parser.Parts [v] := by simp [hvkind]
  have hhalts (power : Nat) : Parser.Halts power 0 false [v] := by
    simp [Parser.continues, hvkind, Token.Kind.startsOperand]
  refine ⟨Sign.apply s (.literal t.literal), ?_, fun n bars => ?_⟩
  · rw [hexact _ _ ((ofInt e).rat?_literal (congrArg Prod.snd ht)), signed_magnitude_ofInt]
  · have hread := Parser.expression_signed s
      (Parser.expression_numeral (n := n + 1) hc htkind hparts (hhalts 0))
      (Parser.expression_numeral hc htkind hparts (hhalts 15)) (hhalts 0)
    rw [Parser.level]
    exact Parser.exponentAt_braced hc (congrArg Prod.fst hu) hvkind hread

theorem rat?_mul_pow {x y z : Expr} {r : ℚ} {e : Int} (hx : x.rat? = some r) (hy : y.rat? = some 10)
    (hz : z.rat? = some (e : ℚ)) : (x.mul (y.pow z)).rat? = some (r * 10 ^ e) := by
  have hpow : (y.pow z).rat? = some (10 ^ e) := by
    have hpower : (10 : ℚ) = 10 ∧ (e : ℚ).den = 1 := ⟨rfl, Rat.den_intCast e⟩
    rw [Expr.pow, Expr.rat?, hy, hz]
    change (if (10 : ℚ) = 10 ∧ (e : ℚ).den = 1 then some ((10 : ℚ) ^ (e : ℚ).num) else none) = _
    rw [if_pos hpower, Rat.num_intCast]
  rw [Expr.mul, Expr.rat?, hx, hpow]
  rfl

theorem reads_unsigned {t : Token} (hc : c.done.kind = .done)
    (ht : t.face = (.number, String.ofList w.mantissa))
    (h : ts.map Token.face = w.factorFaces) :
    ∃ x : Expr, x.rat? = some (w.magnitude * 10 ^ w.exponent.getD 0) ∧
      ∀ n power, power ≤ 20 → (Parser.level c (n + 5)).expression power 0 false (t :: ts) = .ok
        (x, []) := by
  have htkind : t.kind = .number := congrArg Prod.fst ht
  have hmantissa := w.rat?_literal (congrArg Prod.snd ht)
  rw [factorFaces] at h
  cases hexponent : w.exponent with
  | none =>
    rw [hexponent] at h
    obtain rfl := List.map_eq_nil_iff.mp h
    refine ⟨.literal t.literal, ?_, fun n power _ => ?_⟩
    · rw [hmantissa, Option.getD_none, zpow_zero, mul_one]
    · exact Parser.expression_numeral hc htkind Parser.parts_nil Parser.halts_nil
  | some e =>
    rw [hexponent] at h
    obtain ⟨times, ts, rfl, htimes, h⟩ := List.map_eq_cons_iff.mp h
    obtain ⟨ten, ts, rfl, hten, h⟩ := List.map_eq_cons_iff.mp h
    obtain ⟨hat, ts, rfl, hhat, h⟩ := List.map_eq_cons_iff.mp h
    obtain ⟨x, hx, hread⟩ := reads_exponent hc e h
    have hbase : (Expr.literal ten.literal).rat? = some 10 := by
      have hexact := (ofInt 10).rat?_literal (congrArg Prod.snd hten)
      rwa [magnitude_ofInt] at hexact
    refine ⟨_, rat?_mul_pow hmantissa hbase hx, fun n power hpower => ?_⟩
    have hpow : (Parser.level c (n + 4)).expression 21 0 false (ten :: hat :: ts) =
        .ok ((Expr.literal ten.literal).pow x, []) :=
      Parser.expression_operator hc (congrArg Prod.fst hten) (congrArg Prod.fst hhat) (by decide)
        (hread n 0)
    exact Parser.expression_operator hc htkind (congrArg Prod.fst htimes) hpower hpow

theorem reads_faces (hc : c.done.kind = .done) (h : ts.map Token.face = w.faces) : ∃ x : Expr,
    x.rat? = some w.value ∧ ∀ n, (Parser.level c (n + 6)).expression 0 0 false ts = .ok
      (x, []) := by
  rw [faces] at h
  obtain ⟨ss, ts, rfl, hss, h⟩ := List.map_eq_append_iff.mp h
  obtain ⟨t, ts, rfl, ht, hts⟩ := List.map_eq_cons_iff.mp h
  obtain ⟨s, rfl, hexact⟩ := w.exists_sign hss
  obtain ⟨x, hx, hread⟩ := w.reads_unsigned hc ht hts
  exact ⟨Sign.apply s x, hexact x _ hx, fun n =>
    Parser.expression_signed s (hread (n + 1) 0 (by decide)) (hread n 15 (by decide))
      Parser.halts_nil⟩

/-- The decimal as an expression is read with the limit of nesting that stands, to an expression of
its value. -/
theorem parse_source : ∃ x, Expr.parse (String.ofList w.source) Expr.defaultNesting = .ok x ∧
    x.rat? = some w.value := by
  have hpieces := w.pieces_source
  rw [← String.toList_ofList (l := w.source)] at hpieces
  obtain ⟨ts, pos, htokens, hfaces, hkind⟩ := hpieces.tokenize_eq
  let c : Parser.Context := ⟨String.ofList w.source, Expr.defaultNesting, Token.endToken pos⟩
  obtain ⟨x, hx, hread⟩ := w.reads_faces (c := c) rfl hfaces
  refine ⟨x, ?_, hx⟩
  rw [Expr.parse_eq_ofTokens htokens]
  exact (Expr.ofTokens_eq_ok_iff hkind rfl _ _ x).mpr (hread 122)

end Decimal.Written

namespace Datum

/-- A whole number or a finite double. -/
inductive IsFinite : Datum → Prop
  | integer (n : Int) : IsFinite (.integer n)
  | float {x : Float} (hx : x.isFinite = true) : IsFinite (.float x)

variable {host : Host} {d : Datum} {text : String}

theorem IsFinite.exists_written (h : d.IsFinite) (hr : d.render host = .ok text) :
    ∃ w : Decimal.Written, w.chars = text.toList := by
  have hshows := shows_of_render hr
  cases h with
  | integer n =>
    cases hshows
    exact ⟨.ofInt n, Decimal.Written.chars_ofInt n⟩
  | float hx =>
    cases hshows
    exact Notation.exact.exists_write hx Scaled.shortest

theorem numberSource_of_render (hr : d.render host = .ok text) :
    d.numberSource host = powerSource text.toList := by
  rw [numberSource, hr]
  rfl

/-- A finite number that has a writing has an expression, which is read and denotes exactly the same
as the number in writing. -/
theorem numberSource_denotes (h : d.IsFinite) (hr : d.render host = .ok text) :
    ∃ source e r, d.numberSource host = .ok source ∧
      Expr.parse source Expr.defaultNesting = .ok e ∧ Decimal.rat? text.toList = some r ∧
      e.rat? = some r := by
  obtain ⟨w, hw⟩ := h.exists_written hr
  obtain ⟨e, hparse, hexact⟩ := w.parse_source
  refine ⟨String.ofList w.source, e, w.value, ?_, hparse, ?_, hexact⟩
  · rw [numberSource_of_render hr, ← hw, w.powerSource_chars]
  · rw [← hw, w.rat?_chars]

theorem numberSource_denotes_small : (Datum.float (-1.5e-7)).render = .ok "-1.5e-07" ∧
    ∃ source e, (Datum.float (-1.5e-7)).numberSource = .ok source ∧
      Expr.parse source Expr.defaultNesting = .ok e ∧ e.rat? = some (-3 / 20000000) := by
  have hfinite : (-1.5e-7 : Float).isFinite = true := by decide
  have hwritten : (Datum.float (-1.5e-7)).render = .ok "-1.5e-07" := by decide +kernel
  have hrat : Decimal.rat? "-1.5e-07".toList = some (-3 / 20000000) := by decide +kernel
  obtain ⟨source, e, r, hsource, hparse, hr, hexact⟩ :=
    numberSource_denotes (.float hfinite) hwritten
  obtain rfl : -3 / 20000000 = r := Option.some.inj (hrat.symm.trans hr)
  exact ⟨hwritten, source, e, hsource, hparse, hexact⟩

end Datum

end UnitSheet
