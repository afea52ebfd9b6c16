import UnitSheet.Proofs.Decimal.Written
import UnitSheet.Quantity.Basic

namespace UnitSheet

variable {c : Char}

/-- Parts that are not empty and do not have the separator are told apart by their join. -/
theorem intercalate_injective {x : Char} {ls ls' : List (List Char)}
    (hls : ∀ l ∈ ls, l ≠ [] ∧ x ∉ l)
    (hls' : ∀ l ∈ ls', l ≠ [] ∧ x ∉ l) (h : [x].intercalate ls = [x].intercalate ls') :
    ls = ls' := by
  have hsplit {ls : List (List Char)} (hls : ∀ l ∈ ls, l ≠ [] ∧ x ∉ l) :
      (([x].intercalate ls).splitOn x).filter (· ≠ []) = ls := by
    by_cases hnil : ls = []
    · subst hnil
      rfl
    · rw [List.splitOn_intercalate x (fun l hl => (hls l hl).2) hnil, List.filter_eq_self]
      exact fun l hl => decide_eq_true (hls l hl).1
  rw [← hsplit hls, ← hsplit hls', h]

theorem mem_intercalate {l sep : List Char} {ls : List (List Char)} (hl : l ∈ ls) (hc : c ∈ l) :
    c ∈ sep.intercalate ls := by
  induction ls with
  | nil => cases hl
  | cons l' ls ih =>
    cases ls with
    | nil =>
      rw [List.intercalate_singleton, ← List.mem_singleton.mp hl]
      exact hc
    | cons l'' ls =>
      rw [List.intercalate_cons_cons]
      rcases List.mem_cons.mp hl with rfl | hl
      · exact List.mem_append_left _ (List.mem_append_left _ hc)
      · exact List.mem_append_right _ (ih hl)

theorem mem_of_mem_intercalate {sep : List Char} {ls : List (List Char)}
    (hc : c ∈ sep.intercalate ls) : c ∈ sep ∨ ∃ l ∈ ls, c ∈ l := by
  induction ls with
  | nil => cases hc
  | cons l ls ih =>
    cases ls with
    | nil =>
      rw [List.intercalate_singleton] at hc
      exact .inr ⟨l, List.mem_cons_self, hc⟩
    | cons l' ls =>
      rw [List.intercalate_cons_cons] at hc
      rcases List.mem_append.mp hc with hc | hc
      · rcases List.mem_append.mp hc with hc | hc
        · exact .inr ⟨l, List.mem_cons_self, hc⟩
        · exact .inl hc
      · exact (ih hc).imp_right fun ⟨l', hl', hc⟩ => ⟨l', List.mem_cons_of_mem l hl', hc⟩

theorem eq_nil_of_cons_eq_append {x : Char} {as u v : List Char} (hu : x ∉ u)
    (h : x :: u = as ++ x :: v) : as = [] := by
  cases as with
  | nil => rfl
  | cons c as =>
    have hmem : x ∈ u := (List.cons.inj h).2 ▸ List.mem_append_right as List.mem_cons_self
    exact absurd hmem hu

theorem append_cons_inj {x : Char} {a b u v : List Char} (hu : x ∉ u) (hv : x ∉ v)
    (h : a ++ x :: u = b ++ x :: v) : a = b ∧ u = v := by
  rcases List.append_eq_append_iff.mp h with ⟨as, hb, htail⟩ | ⟨as, ha, htail⟩
  · rw [eq_nil_of_cons_eq_append hu htail] at hb htail
    exact ⟨by rw [hb, List.append_nil], (List.cons.inj htail).2⟩
  · rw [eq_nil_of_cons_eq_append hv htail] at ha htail
    exact ⟨by rw [ha, List.append_nil], (List.cons.inj htail).2.symm⟩

def numberMarks : List Char := Notation.marks ++ [' ']

theorem mem_numberText {value imaginary : Float} (hc : c ∈ (numberText value imaginary).toList) :
    c.isDigit = true ∨ c ∈ numberMarks := by
  have hrounded {x : Float} {d : Char} (hd : d ∈ (roundedText 10 x).toList) :
      d.isDigit = true ∨ d ∈ numberMarks :=
    (Notation.mem_write _ hd).imp_right (List.mem_append_left _)
  have hbetween : ∀ t ∈ [" ", "-", "+", "i"], ∀ c ∈ t.toList, c ∈ numberMarks := by
    simp [numberMarks, Notation.marks, Notation.decimalMarks]
  have hsign : (if imaginary < 0 then "-" else "+") ∈ [" ", "-", "+", "i"] := by split <;> decide
  rw [numberText] at hc
  split at hc
  · exact hrounded hc
  · simp only [toString, String.toList_append, List.mem_append] at hc
    rcases hc with ((((hc | hc) | hc) | hc) | hc) | hc
    · exact hrounded hc
    · exact .inr (hbetween " " (by decide) c hc)
    · exact .inr (hbetween _ hsign c hc)
    · exact .inr (hbetween " " (by decide) c hc)
    · exact hrounded hc
    · exact .inr (hbetween "i" (by decide) c hc)

namespace Dimension

variable {d d' : Dimension} {symbol t : String} {symbols : List String} {e e' : Int}
variable {es es' : List Int}

def powerChars (e : Int) : List Char := if e = 1 then [] else '^' :: (toString e).toList

def factorTexts (symbols : List String) (es : List Int) : List String :=
  (symbols.zipWith factorText es).filterMap id

def symbolChars (t : String) : List Char := t.toList.takeWhile (· ≠ '^')

theorem factorText_eq (symbol : String) (e : Int) :
    factorText symbol e = if e = 0 then Option.none else some
      (String.ofList (symbol.toList ++ powerChars e)) := by
  rw [factorText, powerChars]
  by_cases hone : e = 1
  · rw [if_pos hone, if_pos hone, List.append_nil, String.ofList_toList]
  · have htext : symbol ++ "^" ++ toString e =
        String.ofList (symbol.toList ++ '^' :: (toString e).toList) := by
      rw [← String.toList_inj, String.toList_ofList]
      simp
    rw [if_neg hone, if_neg hone, ← htext]
    rfl

theorem toList_of_factorText (ht : factorText symbol e = some t) :
    t.toList = symbol.toList ++ powerChars e := by
  rw [factorText_eq] at ht
  split at ht
  · cases ht
  · cases ht
    exact String.toList_ofList

theorem factorTexts_cons (symbol : String) (symbols : List String) (e : Int) (es : List Int) :
    factorTexts (symbol :: symbols) (e :: es) = (factorText symbol e).toList ++
      factorTexts symbols es := by
  rw [factorTexts, List.zipWith_cons_cons, List.filterMap_cons]
  cases factorText symbol e <;> rfl

theorem powerChars_injective (h : powerChars e = powerChars e') : e = e' := by
  rw [powerChars, powerChars] at h
  by_cases he : e = 1
  · by_cases he' : e' = 1
    · rw [he, he']
    · rw [if_pos he, if_neg he'] at h
      cases h
  · by_cases he' : e' = 1
    · rw [if_neg he, if_pos he'] at h
      cases h
    · rw [if_neg he, if_neg he'] at h
      exact Decimal.Written.toString_injective (String.toList_injective (List.cons.inj h).2)

theorem factorText_injective (h : factorText symbol e = factorText symbol e') : e = e' := by
  rw [factorText_eq, factorText_eq] at h
  by_cases he : e = 0
  · by_cases he' : e' = 0
    · rw [he, he']
    · rw [if_pos he, if_neg he'] at h
      cases h
  · by_cases he' : e' = 0
    · rw [if_neg he, if_pos he'] at h
      cases h
    · rw [if_neg he, if_neg he', Option.some_inj, String.ofList_inj] at h
      exact powerChars_injective (List.append_cancel_left h)

theorem symbolChars_factorText (hsymbol : '^' ∉ symbol.toList) (ht : factorText symbol e = some t) :
    symbolChars t = symbol.toList := by
  have hne : ∀ c ∈ symbol.toList, decide (c ≠ '^') = true := by
    intro c hc
    apply decide_eq_true
    rintro rfl
    exact hsymbol hc
  rw [symbolChars, toList_of_factorText ht, List.takeWhile_append_of_pos hne, powerChars]
  split <;> simp

theorem mem_factorTexts (ht : t ∈ factorTexts symbols es) :
    ∃ s ∈ symbols, ∃ e, factorText s e = some t := by
  induction symbols generalizing es with
  | nil => cases ht
  | cons s symbols ih =>
    cases es with
    | nil => cases ht
    | cons e es =>
      rw [factorTexts_cons] at ht
      rcases List.mem_append.mp ht with ht | ht
      · exact ⟨s, List.mem_cons_self, e, Option.mem_toList.mp ht⟩
      · obtain ⟨s', hs', he⟩ := ih ht
        exact ⟨s', List.mem_cons_of_mem s hs', he⟩

theorem notMem_factorTexts (hpower : ∀ s ∈ symbol :: symbols, '^' ∉ s.toList)
    (hsymbol : symbol ∉ symbols)
    (ht : factorText symbol e = some t) : t ∉ factorTexts symbols es := by
  intro hmem
  obtain ⟨s, hs, e', ht'⟩ := mem_factorTexts hmem
  have hchars := symbolChars_factorText (hpower s (List.mem_cons_of_mem symbol hs)) ht'
  rw [symbolChars_factorText (hpower symbol List.mem_cons_self) ht, String.toList_inj] at hchars
  exact hsymbol (hchars ▸ hs)

/-- The texts of the base units tell their exponents. -/
theorem factorTexts_injective (hpower : ∀ s ∈ symbols, '^' ∉ s.toList) (hnodup : symbols.Nodup)
    (hlength : es.length = symbols.length) (hlength' : es'.length = symbols.length)
    (h : factorTexts symbols es = factorTexts symbols es') : es = es' := by
  induction symbols generalizing es es' with
  | nil => rw [List.length_eq_zero_iff.mp hlength, List.length_eq_zero_iff.mp hlength']
  | cons s symbols ih =>
    obtain ⟨e, es, rfl⟩ := List.exists_cons_of_length_eq_add_one hlength
    obtain ⟨e', es', rfl⟩ := List.exists_cons_of_length_eq_add_one hlength'
    obtain ⟨hs, hnodup⟩ := List.nodup_cons.mp hnodup
    have hrest := ih (fun s hs => hpower s (List.mem_cons_of_mem _ hs)) hnodup
      (Nat.succ.inj hlength) (Nat.succ.inj hlength')
    rw [factorTexts_cons, factorTexts_cons] at h
    -- A symbol that is written on one side only would have to be one of the symbols behind it.
    cases he : factorText s e with
    | none =>
      cases he' : factorText s e' with
      | none =>
        rw [he, he'] at h
        rw [factorText_injective (he.trans he'.symm), hrest h]
      | some t =>
        rw [he, he'] at h
        change factorTexts symbols es = t :: factorTexts symbols es' at h
        exact absurd (h ▸ List.mem_cons_self) (notMem_factorTexts hpower hs he')
    | some t =>
      cases he' : factorText s e' with
      | none =>
        rw [he, he'] at h
        change t :: factorTexts symbols es = factorTexts symbols es' at h
        exact absurd (h ▸ List.mem_cons_self) (notMem_factorTexts hpower hs he)
      | some t' =>
        rw [he, he'] at h
        obtain ⟨ht, hes⟩ := List.cons.inj h
        rw [factorText_injective (he.trans (congrArg some ht |>.trans he'.symm)), hrest hes]

theorem symbols_plain :
    ∀ s ∈ Dimension.symbols, '^' ∉ s.toList ∧ '·' ∉ s.toList ∧ ' ' ∉ s.toList := by
  decide +kernel

theorem exists_symbol_letter {s : String} (hs : s ∈ Dimension.symbols) :
    ∃ c ∈ s.toList, c.isDigit = false ∧ c ∉ numberMarks := by
  have hall : ∀ s ∈ Dimension.symbols,
      s.toList.any (fun c => !c.isDigit && decide (c ∉ numberMarks)) := by
    decide +kernel
  obtain ⟨c, hc, hletter⟩ := List.any_eq_true.mp (hall s hs)
  exact ⟨c, hc, by simpa using hletter⟩

theorem mem_factorText (ht : factorText symbol e = some t) (hc : c ∈ t.toList) :
    c ∈ symbol.toList ∨ c = '^' ∨ c.isDigit = true ∨ c ∈ Notation.decimalMarks := by
  rw [toList_of_factorText ht, powerChars] at hc
  rcases List.mem_append.mp hc with hc | hc
  · exact .inl hc
  · split at hc
    · cases hc
    · rcases List.mem_cons.mp hc with rfl | hc
      · exact .inr (.inl rfl)
      · rw [← Decimal.Written.chars_ofInt] at hc
        exact .inr (.inr (Notation.mem_chars hc))

theorem factorText_plain (ht : t ∈ factorTexts Dimension.symbols es) :
    '·' ∉ t.toList ∧ ' ' ∉ t.toList ∧ ∃ c ∈ t.toList, c.isDigit = false ∧ c ∉ numberMarks := by
  obtain ⟨s, hs, e, he⟩ := mem_factorTexts ht
  obtain ⟨-, hdot, hblank⟩ := symbols_plain s hs
  obtain ⟨c, hc, hletter⟩ := exists_symbol_letter hs
  have hnot {c : Char} (hsymbol : c ∉ s.toList) (hpower : c ≠ '^') (hdigit : c.isDigit = false)
      (hmarks : c ∉ Notation.decimalMarks) : c ∉ t.toList := by
    intro hc
    rcases mem_factorText he hc with hc | hc | hc | hc
    · exact hsymbol hc
    · exact hpower hc
    · exact absurd (hdigit.symm.trans hc) Bool.false_ne_true
    · exact hmarks hc
  have hmem : c ∈ t.toList := by
    rw [toList_of_factorText he]
    exact List.mem_append_left _ hc
  exact ⟨hnot hdot (by decide) rfl (by decide), hnot hblank (by decide) rfl (by decide), c, hmem,
    hletter⟩

theorem toList_text (d : Dimension) :
    d.text.toList = ['·'].intercalate
      ((factorTexts Dimension.symbols d.exponents).map String.toList) := by
  rw [text, String.toList_intercalate]
  rfl

theorem text_inj : d.text = d'.text ↔ d = d' := by
  have hparts (d : Dimension) :
      ∀ l ∈ (factorTexts Dimension.symbols d.exponents).map String.toList, l ≠ [] ∧ '·' ∉ l := by
    intro l hl
    obtain ⟨t, ht, rfl⟩ := List.mem_map.mp hl
    obtain ⟨hdot, -, c, hc, -⟩ := factorText_plain ht
    exact ⟨List.ne_nil_of_mem hc, hdot⟩
  constructor
  · intro h
    rw [← String.toList_inj, toList_text, toList_text] at h
    have htexts := (List.map_inj_right fun _ _ => String.toList_injective).mp
      (intercalate_injective (hparts d) (hparts d') h)
    exact exponents_injective
      (factorTexts_injective (fun s hs => (symbols_plain s hs).1) (by decide) rfl rfl htexts)
  · exact congrArg text

theorem text_eq_empty_iff : d.text = "" ↔ d = none :=
  (text_inj : d.text = none.text ↔ d = none)

theorem blank_notMem_text (d : Dimension) : ' ' ∉ d.text.toList := by
  intro hc
  rw [toList_text] at hc
  rcases mem_of_mem_intercalate hc with hc | ⟨l, hl, hc⟩
  · exact absurd hc (by decide)
  · obtain ⟨t, ht, rfl⟩ := List.mem_map.mp hl
    exact (factorText_plain ht).2.1 hc

theorem exists_letter (h : d.text ≠ "") :
    ∃ c ∈ d.text.toList, c.isDigit = false ∧ c ∉ numberMarks := by
  obtain ⟨t, ts, hts⟩ : ∃ t ts, factorTexts Dimension.symbols d.exponents = t :: ts := by
    apply List.exists_cons_of_ne_nil
    intro hnil
    rw [text, ← factorTexts, hnil] at h
    exact h rfl
  have ht : t ∈ factorTexts Dimension.symbols d.exponents := hts ▸ List.mem_cons_self
  obtain ⟨-, -, c, hc, hletter⟩ := factorText_plain ht
  refine ⟨c, ?_, hletter⟩
  rw [toList_text]
  exact mem_intercalate (List.mem_map_of_mem ht) hc

end Dimension

namespace Quantity

variable {q q' : Quantity} {d d' : Dimension}

theorem render_of_none (h : q.dimension.text = "") : q.render = q.number := by
  rw [render, h]
  rfl

theorem toList_render (h : q.dimension.text ≠ "") :
    q.render.toList = q.number.toList ++ ' ' :: q.dimension.text.toList := by
  have hempty : q.dimension.text.isEmpty = false := by simpa using h
  rw [render, hempty, if_neg Bool.false_ne_true, String.toList_append, String.toList_append,
    List.append_assoc]
  rfl

/-- A number alone does not look like a quantity with a unit. -/
theorem number_ne_render (h : q.dimension.text ≠ "") : q'.number ≠ q.render := by
  intro heq
  obtain ⟨c, hc, hdigit, hmarks⟩ := Dimension.exists_letter h
  have hmem : c ∈ q'.number.toList := by
    rw [heq, toList_render h]
    exact List.mem_append_right _ (List.mem_cons_of_mem _ hc)
  -- Some letter of the unit is found in no number.
  rcases mem_numberText hmem with hc | hc
  · exact absurd (hdigit.symm.trans hc) Bool.false_ne_true
  · exact hmarks hc

theorem render_eq_iff :
    q.render = q'.render ↔ q.number = q'.number ∧ q.dimension.text = q'.dimension.text := by
  by_cases h : q.dimension.text = ""
  · by_cases h' : q'.dimension.text = ""
    · simp [render_of_none, h, h']
    · simp [render_of_none h, number_ne_render h', h, Ne.symm h']
  · by_cases h' : q'.dimension.text = ""
    · simp [render_of_none h', (number_ne_render h).symm, h, h']
    · constructor
      · intro heq
        have hlists := congrArg String.toList heq
        rw [toList_render h, toList_render h'] at hlists
        obtain ⟨hnumber, htext⟩ :=
          append_cons_inj (Dimension.blank_notMem_text _) (Dimension.blank_notMem_text _) hlists
        exact ⟨String.toList_inj.mp hnumber, String.toList_inj.mp htext⟩
      · intro ⟨hnumber, htext⟩
        rw [← String.toList_inj, toList_render h, toList_render h', hnumber, htext]

/-- The text of a unit tells its exponents: only what has no unit has an empty one, and quantities
look alike only with the same unit. -/
theorem units_told_apart (d d' : Dimension) (q q' : Quantity) :
    (d.text = d'.text ↔ d = d') ∧ (d.text = "" ↔ d = .none) ∧
      ((q.withDimension d).render = (q'.withDimension d').render ↔
        q.number = q'.number ∧ d = d') := by
  refine ⟨Dimension.text_inj, Dimension.text_eq_empty_iff, ?_⟩
  rw [render_eq_iff, Dimension.text_inj]
  rfl

end Quantity

end UnitSheet
