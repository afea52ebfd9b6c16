import Mathlib.Data.List.TakeWhile
import UnitSheet.Proofs.Token.Numeral
import UnitSheet.Proofs.Token.Respacing

namespace UnitSheet.Token

variable {cs more after sep text : List Char} {c : Char} {k : Cut} {kind : Kind}
variable {ps : List (Kind × String)}

/-- What the parser sees of a token, its place and value apart. -/
def face (t : Token) : Kind × String := (t.kind, t.text)

/-- The characters are cut, wherever they stand, into well-formed tokens of these kinds and
texts. -/
def Pieces (cs : List Char) (ps : List (Kind × String)) : Prop :=
  ∀ pos, ∃ ts pos' rest, Scans pos cs ts pos' rest ∧ rest.drop (gap rest) = [] ∧ ts.map face = ps ∧
    ∀ t ∈ ts, t.malformed? = none

theorem decimalDigit?_of_isDigit (hc : c.isDigit = true) :
    Text.decimalDigit? c = some (c.toNat - '0'.toNat) := by
  have hrange : 48 ≤ c.toNat ∧ c.toNat ≤ 48 + 9 := Char.isDigit_iff_toNat.mp hc
  rw [Text.decimalDigit?, Text.zeroDigits, List.findSome?_cons, if_pos hrange]
  rfl

theorem isNumeral_of_isDigit (hc : c.isDigit = true) : isNumeral c = true := by
  rw [isNumeral, Text.isDigit, decimalDigit?_of_isDigit hc]
  rfl

namespace Pieces

theorem nil : Pieces [] [] :=
  fun pos => ⟨[], pos, [], .nil pos [], rfl, rfl, List.forall_mem_nil _⟩

/-- One more piece in front: a gap, and characters of which a token is cut. -/
theorem cons (h : Pieces more ps) (hsep : IsGap sep) (hgap : gap (c :: (text ++ more)) = 0)
    (hcut : cut c (text ++ more) = .ok k) (hwell : ∀ m, k.kind ≠ .malformed m)
    (hlength : k.length = text.length + 1) :
    Pieces (sep ++ c :: (text ++ more)) ((k.kind, String.ofList (c :: text)) :: ps) := by
  intro pos
  have hfront : gap (sep ++ c :: (text ++ more)) = sep.length := by
    rw [hsep.gap_append, hgap, Nat.add_zero]
  have hdrop : (sep ++ c :: (text ++ more)).drop (gap (sep ++ c :: (text ++ more))) =
      c :: (text ++ more) := by
    rw [hfront, List.drop_left]
  have hrest : (c :: (text ++ more)).drop k.length = more := by
    rw [hlength, List.drop_succ_cons, List.drop_left]
  have htext : (c :: (text ++ more)).take k.length = c :: text := by
    rw [hlength, List.take_succ_cons, List.take_left]
  obtain ⟨ts, pos', rest, hscans, hend, hfaces, hall⟩ :=
    h (pos + gap (sep ++ c :: (text ++ more)) + k.length)
  have hpiece := Scans.cons hdrop hcut (by rw [hrest]; exact hscans)
  refine ⟨_, pos', rest, hpiece, hend, ?_, List.forall_mem_cons.mpr ⟨?_, hall⟩⟩
  · rw [List.map_cons, hfaces, face, Cut.token, htext]
  · rw [malformed?]
    split
    · next hm => exact absurd hm (hwell _)
    · rfl

/-- The tokens of a source of pieces, with the end behind them. -/
theorem tokenize_eq {source : String} (h : Pieces source.toList ps) :
    ∃ ts pos, tokenize source = .ok (ts ++ [endToken pos]) ∧ ts.map face = ps ∧
      ∀ t ∈ ts, t.kind ≠ .done := by
  obtain ⟨ts, pos, rest, hscans, hend, hfaces, hwell⟩ := h 0
  exact ⟨ts, _, hscans.tokenize_eq hwell hend, hfaces, hscans.kind_ne_done⟩

theorem single?_alone (h : single? c = some kind) :
    isNumeral c = false ∧ c.isAlpha = false ∧ c ≠ '\\' ∧ Text.isBlank c = false ∧
      ∀ m, kind ≠ .malformed m := by
  unfold single? at h
  split at h
  all_goals cases h
  all_goals exact ⟨by decide +kernel, by decide, by decide, by decide, by nofun⟩

theorem single (h : Pieces more ps) (hc : single? c = some kind) :
    Pieces (c :: more) ((kind, String.ofList [c]) :: ps) := by
  obtain ⟨hnumeral, halpha, hslash, hblank, hwell⟩ := single?_alone hc
  have hgap : gap (c :: more) = 0 := by
    rw [gap_cons_of_ne hslash, hblank, if_neg Bool.false_ne_true]
  have hcut : cut c more = .ok { kind := kind, length := 1 } := by
    rw [cut, hnumeral, if_neg Bool.false_ne_true, halpha, if_neg Bool.false_ne_true, if_neg hslash,
      hc]
    rfl
  have hpiece : Pieces ([] ++ c :: ([] ++ more)) _ := h.cons .nil hgap hcut hwell rfl
  exact hpiece

/-- A numeral is one piece in front of what does not go on with it. -/
theorem numeral (h : Pieces more ps) (hsep : IsGap sep) (hc : c ≠ '.')
    (htext : ∀ d ∈ c :: text, isNumeral d = true)
    (hcount : (c :: text).count '.' ≤ 1) (hdecimal : AllDecimal (c :: text))
    (hmore : ∀ d ∈ more.head?, isNumeral d = false) :
    Pieces (sep ++ (c :: text ++ more)) ((.number, String.ofList (c :: text)) :: ps) := by
  have hnumeral : isNumeral c = true := htext c List.mem_cons_self
  have hrun : (c :: text ++ more).takeWhile isNumeral = c :: text := by
    have htake :=
      takeWhile_take_append (List.takeWhile_prefix isNumeral (l := c :: text)).length_le hmore
    rw [List.take_length] at htake
    rw [htake]
    exact List.takeWhile_eq_self_iff.mpr htext
  have hpoint : c :: text ≠ ['.'] := fun h => hc (List.cons.inj h).1
  obtain ⟨v, hv⟩ := numeralValue_of_allDecimal hdecimal ⟨c, List.mem_cons_self, hc⟩
  have hcut : cut c (text ++ more) = .ok ⟨.number, (c :: text).length, v, .none,
      significantFigures (c :: text)⟩ := by
    rw [cut, if_pos hnumeral, cutNumber, ← List.cons_append, hrun,
      if_neg (not_or.mpr ⟨Nat.not_lt.mpr hcount, hpoint⟩), hv]
    rfl
  have hslash : c ≠ '\\' := by
    rintro rfl
    exact absurd hnumeral (by decide +kernel)
  have hblank : Text.isBlank c = false := by
    by_contra hblank
    have hparts := parts_of_isBlank (Bool.of_not_eq_false hblank)
    rw [hparts.numeral] at hnumeral
    cases hnumeral
  have hgap : gap (c :: (text ++ more)) = 0 := by
    rw [gap_cons_of_ne hslash, hblank, if_neg Bool.false_ne_true]
  exact h.cons hsep hgap hcut (fun m hm => (by cases hm)) rfl

/-- The command of a product in front of what does not go on with it. -/
theorem times (h : Pieces more ps) (hmore : Parted more) :
    Pieces ('\\' :: ("cdot".toList ++ more)) ((.operator (.arithmetic .mul), "\\cdot") :: ps) := by
  have hgap : gap ('\\' :: ("cdot".toList ++ more)) = 0 := if_neg (by decide)
  have hcut :
      cut '\\' "cdot".toList = .ok { kind := .operator (.arithmetic .mul), length := 5 } := by
    have hkeyword : keyword? "cdot".toList = some ("cdot", .operator (.arithmetic .mul)) := by
      decide +kernel
    rw [cut, if_neg (by decide +kernel), if_neg (by decide), if_pos rfl, cutCommand, hkeyword]
    rfl
  have hwell (m : Malformed) : Kind.operator (.arithmetic .mul) ≠ .malformed m :=
    fun hm => (by cases hm)
  obtain ⟨n, hn, -, -, hagain⟩ := cut_take_append hcut hwell hmore
  exact h.cons .nil hgap (hagain 4 hn) hwell rfl

end Pieces

end UnitSheet.Token
