import Mathlib.Algebra.Order.Field.Rat
import Mathlib.Algebra.GroupWithZero.Basic
import UnitSheet.Decimal.Notation
import UnitSheet.Decimal.Reading

namespace UnitSheet

variable {ds rest : List Char} {c : Char}

namespace Decimal

def spanDecimal (cs : List Char) : List Nat × List Nat × List Char :=
  match spanDigits cs with
  | (whole, '.' :: rest) => let (fraction, rest) := spanDigits rest; (whole, fraction, rest)
  | (whole, rest) => (whole, [], rest)

/-- The rational that a text denotes: an optional sign, digits around at most one point and an
optional exponent. -/
def rat? (cs : List Char) : Option ℚ :=
  let (negative, cs) := spanSign cs
  let (whole, fraction, cs) := spanDecimal cs
  if whole.isEmpty && fraction.isEmpty then none
  else (exponent? cs).map fun e =>
    let magnitude : ℚ := natOfDigits (whole ++ fraction) * 10 ^ (e - fraction.length : Int)
    if negative then -magnitude else magnitude

def digits (cs : List Char) : List Nat := cs.map fun c => c.toNat - '0'.toNat

theorem natOfDigits_digits (cs : List Char) : natOfDigits (digits cs) = Nat.ofDigitChars 10 cs 0 :=
  List.foldl_map

theorem spanDigits_append (hds : ∀ d ∈ ds, d.isDigit = true)
    (hrest : ∀ c ∈ rest.head?, c.isDigit = false) :
    spanDigits (ds ++ rest) = (digits ds, rest) := by
  induction ds with
  | nil =>
    cases rest with
    | nil => rfl
    | cons c rest => simp [spanDigits, digit?, hrest c rfl, digits]
  | cons d ds ih =>
    obtain ⟨hd, hds⟩ := List.forall_mem_cons.mp hds
    rw [List.cons_append, spanDigits, digit?, if_pos hd, ih hds]
    rfl

theorem spanDigits_digits (hds : ∀ d ∈ ds, d.isDigit = true) : spanDigits ds = (digits ds, []) := by
  have hspan : spanDigits (ds ++ []) = (digits ds, []) := spanDigits_append hds (by nofun)
  rwa [List.append_nil] at hspan

theorem isDigit_of_spanDigits {cs : List Char} {ns : List Nat} (h : spanDigits cs = (ns, [])) :
    ∀ c ∈ cs, c.isDigit = true := by
  induction cs generalizing ns with
  | nil => exact List.forall_mem_nil _
  | cons c cs ih =>
    rw [spanDigits, digit?] at h
    by_cases hc : c.isDigit = true
    · rw [if_pos hc] at h
      have hrest : spanDigits cs = ((spanDigits cs).1, []) := Prod.ext rfl (Prod.mk.inj h).2
      exact List.forall_mem_cons.mpr ⟨hc, ih hrest⟩
    · rw [if_neg hc] at h
      cases h

theorem spanSign_suffix (cs : List Char) : (spanSign cs).2 <:+ cs := by
  unfold spanSign
  split
  · exact List.suffix_cons _ _
  · exact List.suffix_cons _ _
  · exact List.suffix_rfl

theorem spanSign_of_isDigit (hc : c.isDigit = true) :
    spanSign (c :: rest) = (false, c :: rest) := by
  rw [spanSign]
  · rintro _ ⟨⟩
    exact absurd hc (by decide)
  · rintro _ ⟨⟩
    exact absurd hc (by decide)

theorem spanSign_exponent (e : Int) :
    ∃ ds, spanSign (Notation.exponent e) = (decide (e < 0), ds) ∧ ds ≠ [] ∧
    (∀ d ∈ ds, d.isDigit = true) ∧ natOfDigits (digits ds) = e.natAbs := by
  refine ⟨Notation.zeros (2 - (Nat.toDigits 10 e.natAbs).length) ++ Nat.toDigits 10 e.natAbs, ?_,
    ?_, ?_, ?_⟩
  · rw [Notation.exponent]
    by_cases he : e < 0
    · simp only [if_pos he, decide_eq_true he]
      rfl
    · simp only [if_neg he, decide_eq_false he]
      rfl
  · exact List.append_ne_nil_of_right_ne_nil _ Nat.toDigits_ne_nil
  · intro d hd
    rcases List.mem_append.mp hd with hd | hd
    · rw [List.eq_of_mem_replicate hd]
      rfl
    · exact Nat.isDigit_of_mem_toDigits (by decide) (by decide) hd
  · rw [natOfDigits_digits, Nat.ofDigitChars_append, Notation.zeros,
      Nat.ofDigitChars_replicate_zero, Nat.mul_zero, Nat.ofDigitChars_ten_toDigits]

theorem signed_natAbs (e : Int) :
    (if decide (e < 0) = true then -(e.natAbs : Int) else e.natAbs) = e := by
  split
  · next he => rw [Int.ofNat_natAbs_of_nonpos (Int.le_of_lt (of_decide_eq_true he)), Int.neg_neg]
  · next he =>
    exact Int.natAbs_of_nonneg (Int.not_lt.mp (of_decide_eq_false (Bool.eq_false_iff.mpr he)))

theorem exponent?_exponent (e : Int) : exponent? ('e' :: Notation.exponent e) = some e := by
  obtain ⟨ds, hsign, hne, hds, hvalue⟩ := spanSign_exponent e
  obtain ⟨d, ds, rfl⟩ := List.exists_cons_of_ne_nil hne
  rw [exponent?, if_pos (.inl rfl), hsign]
  dsimp only
  rw [spanDigits_digits hds]
  change some
    (if _ then -(natOfDigits (digits (d :: ds)) : Int) else natOfDigits (digits (d :: ds))) = _
  rw [hvalue, signed_natAbs]

/-- A decimal in writing; without digits behind the point, there is none. -/
structure Written where
  negative : Bool
  whole : List Char
  fraction : List Char
  exponent : Option Int
  whole_ne_nil : whole ≠ []
  isDigit : ∀ c ∈ whole ++ fraction, c.isDigit = true

namespace Written

def point : List Char → List Char
  | [] => []
  | ds => '.' :: ds

variable (w : Written)

def sign : List Char := if w.negative then ['-'] else []

def mantissa : List Char := w.whole ++ point w.fraction

def power : List Char :=
  match w.exponent with
  | none => []
  | some e => 'e' :: Notation.exponent e

def chars : List Char := w.sign ++ (w.mantissa ++ w.power)

def magnitude : ℚ :=
  Nat.ofDigitChars 10 (w.whole ++ w.fraction) 0 * 10 ^ (-(w.fraction.length : Int))

def value : ℚ :=
  let unsigned := w.magnitude * 10 ^ w.exponent.getD 0
  if w.negative then -unsigned else unsigned

def plain : Written := ⟨false, w.whole, w.fraction, none, w.whole_ne_nil, w.isDigit⟩

def ofInt (n : Int) : Written where
  negative := n < 0
  whole := Nat.toDigits 10 n.natAbs
  fraction := []
  exponent := none
  whole_ne_nil := Nat.toDigits_ne_nil
  isDigit := fun _ hc => Nat.isDigit_of_mem_toDigits (by decide) (by decide)
    (List.append_nil _ ▸ hc)

theorem point_of_ne_nil (h : ds ≠ []) : point ds = '.' :: ds := by
  cases ds with
  | nil => exact absurd rfl h
  | cons d ds => rfl

theorem exponent?_power : exponent? w.power = some (w.exponent.getD 0) := by
  rw [power]
  cases w.exponent with
  | none => rfl
  | some e => exact exponent?_exponent e

theorem power_head : ∀ c ∈ w.power.head?, c = 'e' := by
  rw [power]
  cases w.exponent with
  | none => nofun
  | some e => simp

theorem isDigit_whole : ∀ c ∈ w.whole, c.isDigit = true :=
  fun c hc => w.isDigit c (List.mem_append_left _ hc)

theorem isDigit_fraction : ∀ c ∈ w.fraction, c.isDigit = true :=
  fun c hc => w.isDigit c (List.mem_append_right _ hc)

theorem exists_mantissa : ∃ d ds, d.isDigit = true ∧ w.mantissa = d :: ds := by
  obtain ⟨d, ds, hwhole⟩ := List.exists_cons_of_ne_nil w.whole_ne_nil
  have hd : d.isDigit = true := w.isDigit_whole d (by rw [hwhole]; exact List.mem_cons_self)
  rw [mantissa, hwhole]
  exact ⟨d, _, hd, rfl⟩

theorem isDigit_or_point_of_mem_mantissa (hc : c ∈ w.mantissa) : c.isDigit = true ∨ c = '.' := by
  rw [mantissa] at hc
  rcases List.mem_append.mp hc with hc | hc
  · exact .inl (w.isDigit_whole c hc)
  · have hfraction := w.isDigit_fraction
    cases hf : w.fraction with
    | nil =>
      rw [hf] at hc
      cases hc
    | cons d ds =>
      rw [hf] at hc hfraction
      rcases List.mem_cons.mp hc with hc | hc
      · exact .inr hc
      · exact .inl (hfraction c hc)

theorem count_point_mantissa : w.mantissa.count '.' ≤ 1 := by
  have hzero {ds : List Char} (h : ∀ c ∈ ds, c.isDigit = true) : ds.count '.' = 0 :=
    List.count_eq_zero.mpr fun hc => absurd (h '.' hc) (by decide)
  have hfraction := hzero w.isDigit_fraction
  rw [mantissa, List.count_append, hzero w.isDigit_whole]
  cases hf : w.fraction with
  | nil => simp [point]
  | cons d ds =>
    rw [hf] at hfraction
    rw [point_of_ne_nil (List.cons_ne_nil d ds), List.count_cons_self, hfraction]

theorem spanSign_chars : spanSign w.chars = (w.negative, w.mantissa ++ w.power) := by
  obtain ⟨d, ds, hd, hmantissa⟩ := w.exists_mantissa
  rw [chars, sign, hmantissa]
  cases w.negative with
  | true => rfl
  | false => exact spanSign_of_isDigit hd

theorem spanDecimal_mantissa :
    spanDecimal (w.mantissa ++ w.power) = (digits w.whole, digits w.fraction, w.power) := by
  have hpower : ∀ c ∈ w.power.head?, c.isDigit = false := by
    intro c hc
    rw [w.power_head c hc]
    rfl
  have hfraction := w.isDigit_fraction
  rw [spanDecimal, mantissa, List.append_assoc]
  cases hf : w.fraction with
  | nil =>
    rw [point, List.nil_append, spanDigits_append w.isDigit_whole hpower, power]
    cases w.exponent <;> rfl
  | cons d ds =>
    rw [hf] at hfraction
    have hpoint : ∀ c ∈ ('.' :: (d :: ds ++ w.power)).head?, c.isDigit = false := by
      rintro _ ⟨⟩
      rfl
    have hspan := spanDigits_append hfraction hpower
    rw [point_of_ne_nil (List.cons_ne_nil d ds), List.cons_append,
      spanDigits_append w.isDigit_whole hpoint]
    exact congrArg (digits w.whole, ·) hspan

theorem rat?_chars : rat? w.chars = some w.value := by
  have hwhole : (digits w.whole).isEmpty = false := by
    rw [digits, List.isEmpty_map]
    exact List.isEmpty_eq_false_iff.mpr w.whole_ne_nil
  have hmagnitude : (natOfDigits (digits w.whole ++ digits w.fraction) : ℚ) *
      10 ^ (w.exponent.getD 0 - (digits w.fraction).length : Int) = w.magnitude *
        10 ^ w.exponent.getD 0 := by
    rw [digits, digits, ← List.map_append, ← digits, natOfDigits_digits, List.length_map, magnitude,
      mul_assoc, ← zpow_add₀ (by decide), neg_add_eq_sub]
  rw [rat?, spanSign_chars]
  dsimp only
  rw [spanDecimal_mantissa]
  dsimp only
  rw [hwhole, Bool.false_and, if_neg Bool.false_ne_true, exponent?_power, Option.map_some,
    hmagnitude, value]

theorem chars_plain : w.plain.chars = w.mantissa := List.append_nil _

theorem value_plain : w.plain.value = w.magnitude := mul_one _

theorem magnitude_ofInt (n : Int) : (ofInt n).magnitude = n.natAbs := by
  change ((Nat.ofDigitChars 10 (Nat.toDigits 10 n.natAbs ++ []) 0 : Nat) : ℚ) * 10 ^ (0 : Int) = _
  rw [List.append_nil, Nat.ofDigitChars_ten_toDigits, zpow_zero, mul_one]

theorem signed_magnitude_ofInt (n : Int) :
    (if (ofInt n).negative then -(ofInt n).magnitude else (ofInt n).magnitude) = n := by
  have hcast := congrArg (fun m : Int => (m : ℚ)) (signed_natAbs n)
  rw [apply_ite fun m : Int => (m : ℚ), Int.cast_neg, Int.cast_natCast] at hcast
  rw [magnitude_ofInt]
  exact hcast

theorem chars_ofInt (n : Int) : (ofInt n).chars = (toString n).toList := by
  rw [chars, sign, mantissa, power]
  cases n with
  | ofNat n =>
    change [] ++ ((Nat.toDigits 10 n ++ []) ++ []) = n.repr.toList
    rw [Nat.repr_eq_ofList_toDigits, String.toList_ofList]
    simp
  | negSucc n =>
    have hnegative : (ofInt (.negSucc n)).negative = true := decide_eq_true (Int.negSucc_lt_zero n)
    rw [if_pos hnegative]
    change ['-'] ++ ((Nat.toDigits 10 (n + 1) ++ []) ++ []) = ("-" ++ (n + 1).repr).toList
    rw [Nat.repr_eq_ofList_toDigits, String.toList_append, String.toList_ofList]
    simp

theorem value_ofInt (n : Int) : (ofInt n).value = n := by
  have hpower :
      (ofInt n).magnitude * 10 ^ (ofInt n).exponent.getD 0 = (ofInt n).magnitude := mul_one _
  rw [value, hpower]
  exact signed_magnitude_ofInt n

theorem toString_injective {m n : Int} (h : toString m = toString n) : m = n := by
  have hvalue : some ((ofInt m).value) = some ((ofInt n).value) := by
    rw [← rat?_chars, ← rat?_chars, chars_ofInt, chars_ofInt, h]
  rw [value_ofInt, value_ofInt] at hvalue
  exact Rat.intCast_inj.mp (Option.some.inj hvalue)

end Written

end Decimal

namespace Notation

open Decimal (Written)

variable (n : Notation) {digits : List Char}

theorem significant_ne_nil (coefficient : Nat) : significant coefficient ≠ [] := by
  rw [significant]
  split
  · exact List.cons_ne_nil _ _
  · next hne => exact fun h => hne (List.reverse_eq_nil_iff.mp h)

theorem isDigit_significant (coefficient : Nat) :
    ∀ c ∈ significant coefficient, c.isDigit = true := by
  intro c hc
  rw [significant] at hc
  split at hc
  · rw [List.mem_singleton.mp hc]
    rfl
  · have hmem := (List.dropWhile_suffix _).subset (List.mem_reverse.mp hc)
    exact Nat.isDigit_of_mem_toDigits (by decide) (by decide) (List.mem_reverse.mp hmem)

theorem isDigit_zeros (k : Nat) : ∀ c ∈ zeros k, c.isDigit = true := by
  intro c hc
  rw [List.eq_of_mem_replicate hc]
  rfl

theorem exists_positional (negative : Bool) {whole fraction : List Char} (hne : whole ≠ [])
    (hdigits : ∀ c ∈ whole ++ fraction, c.isDigit = true) :
    ∃ w : Written, w.negative = negative ∧
      w.mantissa ++ w.power = whole ++ Written.point fraction :=
  ⟨⟨negative, whole, fraction, none, hne, hdigits⟩, rfl, List.append_nil _⟩

theorem exists_layout (negative : Bool) (hne : digits ≠ [])
    (hdigits : ∀ c ∈ digits, c.isDigit = true) (lead : Int) :
    ∃ w : Written, w.negative = negative ∧ w.mantissa ++ w.power = n.layout digits lead := by
  have hzero : ∀ c ∈ ['0'], c.isDigit = true := List.forall_mem_singleton.mpr rfl
  unfold layout
  split
  · obtain ⟨d, ds, rfl⟩ := List.exists_cons_of_ne_nil hne
    refine ⟨⟨negative, [d], ds, some lead, List.cons_ne_nil _ _, hdigits⟩, rfl, ?_⟩
    cases ds <;> rfl
  · split
    · have hfraction := List.forall_mem_append.mpr ⟨isDigit_zeros (lead.natAbs - 1), hdigits⟩
      have hpositional := exists_positional negative (List.cons_ne_nil '0' [])
        (List.forall_mem_append.mpr ⟨hzero, hfraction⟩)
      rwa [Written.point_of_ne_nil (List.append_ne_nil_of_right_ne_nil _ hne)] at hpositional
    · dsimp only
      split
      · have hwhole : ∀ c ∈ digits ++ zeros (lead.toNat + 1 - digits.length), c.isDigit = true :=
          List.forall_mem_append.mpr ⟨hdigits, isDigit_zeros _⟩
        have hwhole_ne := List.append_ne_nil_of_left_ne_nil hne
          (zeros (lead.toNat + 1 - digits.length))
        cases n.showsFraction with
        | true =>
          exact exists_positional negative hwhole_ne (List.forall_mem_append.mpr ⟨hwhole, hzero⟩)
        | false =>
          exact exists_positional negative hwhole_ne
            (List.forall_mem_append.mpr ⟨hwhole, List.forall_mem_nil _⟩)
      · next hlength =>
        have hall : ∀ c ∈ digits.take (lead.toNat + 1) ++ digits.drop (lead.toNat + 1),
            c.isDigit = true := by
          rwa [List.take_append_drop]
        have hwhole : digits.take (lead.toNat + 1) ≠ [] := by
          rw [ne_eq, List.take_eq_nil_iff, not_or]
          exact ⟨Nat.succ_ne_zero _, hne⟩
        have hfraction : digits.drop (lead.toNat + 1) ≠ [] :=
          fun h => hlength (List.drop_eq_nil_iff.mp h)
        have hpositional := exists_positional negative hwhole hall
        rwa [Written.point_of_ne_nil hfraction] at hpositional

theorem float_cases (x : Float) : x.isFinite = true ∧ x.isNaN = false ∧ x.isInf = false ∨
    x.isFinite = false ∧ (x.isNaN = true ∨ x.isNaN = false ∧ x.isInf = true) := by
  change x.toModel.unpack.isFinite = true ∧ x.toModel.unpack.isNaN = false ∧
    x.toModel.unpack.isInf = false ∨ x.toModel.unpack.isFinite = false ∧
      (x.toModel.unpack.isNaN = true ∨ x.toModel.unpack.isNaN = false ∧
        x.toModel.unpack.isInf = true)
  cases x.toModel.unpack with
  | zero | finite => exact .inl ⟨rfl, rfl, rfl⟩
  | notANumber => exact .inr ⟨rfl, .inl rfl⟩
  | infinity => exact .inr ⟨rfl, .inr ⟨rfl, rfl⟩⟩

/-- A finite double is written as a decimal. -/
theorem exists_write {x : Float} (hx : x.isFinite = true) (choose : Binary → Scaled) :
    ∃ w : Written, w.chars = (n.write choose x).toList := by
  rcases float_cases x with ⟨-, hnan, hinf⟩ | ⟨hnot, -⟩
  · rw [write, hnan, hinf, if_neg Bool.false_ne_true]
    dsimp only
    rw [if_neg Bool.false_ne_true, String.toList_ofList, writeScaled]
    obtain ⟨w, hsign, hw⟩ :=
      n.exists_layout (Binary.ofFloat x).negative (significant_ne_nil _) (isDigit_significant _) _
    exact ⟨w, by rw [Written.chars, Written.sign, hsign, hw]⟩
  · rw [hx] at hnot
    cases hnot

theorem not_mem_write {x : Float} (hx : x.isFinite = false) (choose : Binary → Scaled) :
    'e' ∉ (n.write choose x).toList := by
  rcases float_cases x with ⟨hfinite, -⟩ | ⟨-, hnan | ⟨hnan, hinf⟩⟩
  · rw [hx] at hfinite
    cases hfinite
  · rw [write, hnan, if_pos rfl]
    decide
  · rw [write, hnan, hinf, if_neg Bool.false_ne_true]
    dsimp only
    rw [if_pos rfl, String.toList_ofList]
    cases (Binary.ofFloat x).negative <;> decide

def decimalMarks : List Char := ['-', '+', '.', 'e']

theorem mem_exponent {e : Int} (hc : c ∈ exponent e) : c.isDigit = true ∨ c ∈ decimalMarks := by
  rw [exponent] at hc
  rcases List.mem_cons.mp hc with rfl | hc
  · exact .inr (by split <;> decide)
  · rcases List.mem_append.mp hc with hc | hc
    · exact .inl (isDigit_zeros _ c hc)
    · exact .inl (Nat.isDigit_of_mem_toDigits (by decide) (by decide) hc)

theorem mem_chars {w : Written} (hc : c ∈ w.chars) : c.isDigit = true ∨ c ∈ decimalMarks := by
  have hsign : ∀ d ∈ w.sign, d ∈ decimalMarks := by
    rw [Written.sign]
    cases w.negative <;> simp [decimalMarks]
  rcases List.mem_append.mp hc with hc | hc
  · exact .inr (hsign c hc)
  · rcases List.mem_append.mp hc with hc | hc
    · rcases w.isDigit_or_point_of_mem_mantissa hc with hdigit | rfl
      · exact .inl hdigit
      · exact .inr (by decide)
    · rw [Written.power] at hc
      cases he : w.exponent with
      | none =>
        rw [he] at hc
        cases hc
      | some e =>
        rw [he] at hc
        rcases List.mem_cons.mp hc with rfl | hc
        · exact .inr (by decide)
        · exact mem_exponent hc

def marks : List Char := decimalMarks ++ ['n', 'a', 'i', 'f']

theorem mem_write {x : Float} {choose : Binary → Scaled} (hc : c ∈ (n.write choose x).toList) :
    c.isDigit = true ∨ c ∈ marks := by
  rcases float_cases x with ⟨hfinite, -⟩ | ⟨-, hnan | ⟨hnan, hinf⟩⟩
  · obtain ⟨w, hw⟩ := n.exists_write hfinite choose
    rw [← hw] at hc
    exact (mem_chars hc).imp_right (List.mem_append_left _)
  · have hall : ∀ c ∈ "nan".toList, c ∈ marks := by simp [marks]
    rw [write, hnan, if_pos rfl] at hc
    exact .inr (hall c hc)
  · have hall (negative : Bool) : ∀ c ∈ (if negative then ['-'] else []) ++ ['i', 'n', 'f'],
        c ∈ marks := by
      cases negative <;> simp [marks, decimalMarks]
    rw [write, hnan, hinf, if_neg Bool.false_ne_true] at hc
    dsimp only at hc
    rw [if_pos rfl, String.toList_ofList] at hc
    exact .inr (hall _ c hc)

end Notation

end UnitSheet
