import UnitSheet.Proofs.Settings.NumberSource
import UnitSheet.Settings.Basic

namespace UnitSheet

namespace Datum

/-- A text or a number, which are the values that a constant may have. -/
inductive IsValue : Datum → Prop
  | integer (n : Int) : IsValue (.integer n)
  | float (x : Float) : IsValue (.float x)
  | text (s : String) : IsValue (.text s)

/-- An entry of the constants has a value and a unit: it is the value alone, or a table of both, in
which a unit that is there is a text. -/
inductive Entry : Datum → Datum → String → Prop
  | alone {d : Datum} (h : ∀ fields, d ≠ .table fields) : Entry d d ""
  | unitless {fields : List (String × Datum)} {v : Datum} (hv : fields.lookup "value" = some v)
      (hu : fields.lookup "unit" = none) : Entry (.table fields) v ""
  | unit {fields : List (String × Datum)} {v : Datum} {u : String}
      (hv : fields.lookup "value" = some v)
      (hu : fields.lookup "unit" = some (.text u)) : Entry (.table fields) v u

/-- An entry that is an error of the document. -/
inductive Refused : Datum → Prop
  | alone {d : Datum} (h : ∀ fields, d ≠ .table fields) (hd : ¬ d.IsValue) : Refused d
  | value {fields : List (String × Datum)}
      (hv : fields.lookup "value" = none) : Refused (.table fields)
  | unit {fields : List (String × Datum)} {u : Datum} (hu : fields.lookup "unit" = some u)
      (h : ∀ s, u ≠ .text s) : Refused (.table fields)

/-- An entry that is a table with a value of the wrong type, which nothing checks. -/
inductive Overlooked : Datum → Datum → Prop
  | table {fields : List (String × Datum)} {v : Datum} {u : String} (h : Entry (.table fields) v u)
      (hv : ¬ v.IsValue) : Overlooked (.table fields) v

/-- An entry of which no expression is made: its value has no writing, or it is of the wrong type
and has an `e` in writing. -/
inductive Inexpressible (host : Host) : Datum → Prop
  | unwritable {d v : Datum} {u : String} (he : Entry d v u) (hv : v.IsValue ∨ Overlooked d v)
      (htext : ∀ s, v ≠ .text s) (h : v.Unwritable host) : Inexpressible host d
  | exponent {d v : Datum} {text : String} (ho : Overlooked d v) (hr : v.render host = .ok text)
      (he : 'e' ∈ text.toList) : Inexpressible host d

variable {host : Host} {d v : Datum} {cs : List Char} {n : Int} {text : String}

theorem powerSource_of_not_mem (h : 'e' ∉ cs) : powerSource cs = .ok (String.ofList cs) := by
  have hnone : cs.dropWhile (· ≠ 'e') = [] := by
    rw [List.dropWhile_eq_nil_iff]
    intro c hc
    apply decide_eq_true
    rintro rfl
    exact h hc
  rw [powerSource, hnone]

theorem IsValue.powerSource_ok (h : v.IsValue) (htext : ∀ s, v ≠ .text s)
    (hr : v.render host = .ok text) : ∃ source, powerSource text.toList = .ok source := by
  have hfinite (hd : v.IsFinite) : ∃ source, powerSource text.toList = .ok source := by
    obtain ⟨w, hw⟩ := hd.exists_written hr
    exact ⟨_, hw ▸ w.powerSource_chars⟩
  cases h with
  | text s => exact absurd rfl (htext s)
  | integer n => exact hfinite (.integer n)
  | float x =>
    cases hx : x.isFinite with
    | true => exact hfinite (.float hx)
    | false =>
      have hshows := shows_of_render hr
      cases hshows
      exact ⟨_, powerSource_of_not_mem (Notation.exact.not_mem_write hx Scaled.shortest)⟩

theorem Entry.unique {u u' : String} {v' : Datum} (h : Entry d v u) (h' : Entry d v' u') :
    v = v' := by
  cases h with
  | alone hd =>
    cases h' with
    | alone => rfl
    | unitless | unit => exact absurd rfl (hd _)
  | unitless hv | unit hv =>
    cases h' with
    | alone hd => exact absurd rfl (hd _)
    | unitless hv' | unit hv' => exact Option.some.inj (hv.symm.trans hv')

theorem Overlooked.not_isValue {u : String} {v' : Datum} (h : Overlooked d v')
    (he : Entry d v u) : ¬ v.IsValue := by
  cases h with
  | table he' hv => exact he.unique he' ▸ hv

theorem entry_cases (d : Datum) :
    (∃ v u, Entry d v u ∧ (v.IsValue ∨ Overlooked d v)) ∨ Refused d := by
  by_cases htable : ∃ fields, d = .table fields
  · obtain ⟨fields, rfl⟩ := htable
    cases hv : fields.lookup "value" with
    | none => exact .inr (.value hv)
    | some v =>
      have hentry : (∃ u, Entry (.table fields) v u) ∨ Refused (.table fields) := by
        cases hu : fields.lookup "unit" with
        | none => exact .inl ⟨_, .unitless hv hu⟩
        | some u =>
          by_cases htext : ∃ s, u = .text s
          · obtain ⟨s, rfl⟩ := htext
            exact .inl ⟨_, .unit hv hu⟩
          · exact .inr (.unit hu fun s hs => htext ⟨s, hs⟩)
      rcases hentry with ⟨u, hentry⟩ | hrefused
      · by_cases hvalue : v.IsValue
        · exact .inl ⟨v, u, hentry, .inl hvalue⟩
        · exact .inl ⟨v, u, hentry, .inr (.table hentry hvalue)⟩
      · exact .inr hrefused
  · have halone : ∀ fields, d ≠ .table fields := fun fields h => htable ⟨fields, h⟩
    by_cases hvalue : d.IsValue
    · exact .inl ⟨d, "", .alone halone, .inl hvalue⟩
    · exact .inr (.alone halone hvalue)

theorem Entry.not_refused {u : String} (he : Entry d v u) (h : v.IsValue ∨ Overlooked d v) :
    ¬ Refused d := by
  intro hr
  cases he with
  | alone hd =>
    rcases h with h | h
    · cases hr with
      | alone _ hvalue => exact hvalue h
      | value | unit => exact hd _ rfl
    · cases h
      exact hd _ rfl
  | unitless hv hu =>
    cases hr with
    | alone hd => exact hd _ rfl
    | value hv' => exact absurd (hv'.symm.trans hv) (by nofun)
    | unit hu' => exact absurd (hu'.symm.trans hu) (by nofun)
  | unit hv hu =>
    cases hr with
    | alone hd => exact hd _ rfl
    | value hv' => exact absurd (hv'.symm.trans hv) (by nofun)
    | unit hu' htext => exact htext _ (Option.some.inj (hu'.symm.trans hu))

theorem Overlooked.not_refused (h : Overlooked d v) : ¬ Refused d := by
  have ho := h
  cases h with
  | table he => exact he.not_refused (.inr ho)

theorem Overlooked.unique {v' : Datum} (h : Overlooked d v) (h' : Overlooked d v') : v = v' := by
  cases h with
  | table he =>
    cases h' with
    | table he' => exact he.unique he'

theorem Inexpressible.not_refused (h : Inexpressible host d) : ¬ Refused d := by
  cases h with
  | unwritable he hv => exact he.not_refused hv
  | exponent ho => exact ho.not_refused

theorem getLast?_of_suffix {ds : List Char} {c : Char} (h : ds <:+ cs) (hc : ds.getLast? = some c) :
    cs.getLast? = some c := by
  obtain ⟨front, rfl⟩ := h
  obtain ⟨more, rfl⟩ := List.getLast?_eq_some_iff.mp hc
  rw [← List.append_assoc]
  exact List.getLast?_concat

theorem isDigit_of_exponentOf (h : exponentOf cs = .ok n) :
    ∃ d, cs.getLast? = some d ∧ d.isDigit = true := by
  rw [exponentOf] at h
  dsimp only at h
  split at h
  · next d ds hspan =>
    have hdigits := Decimal.isDigit_of_spanDigits hspan
    rcases List.eq_nil_or_concat' (Decimal.spanSign cs).2 with hnil | ⟨more, last, hlast⟩
    · rw [hnil] at hspan
      cases hspan
    · have hconcat : (Decimal.spanSign cs).2.getLast? = some last := by
        rw [hlast, List.getLast?_concat]
      exact ⟨last, getLast?_of_suffix (Decimal.spanSign_suffix cs) hconcat,
        hdigits last (by simp [hlast])⟩
  · cases h

/-- What is neither a text nor a number is written with a last character that is no digit. -/
theorem Shows.getLast? (h : Shows v text) (hv : ¬ v.IsValue) :
    ∃ c, text.toList.getLast? = some c ∧ c.isDigit = false := by
  cases h with
  | null => exact ⟨'e', by decide, rfl⟩
  | boolean b => cases b <;> exact ⟨'e', by decide, rfl⟩
  | integer n => exact absurd (.integer n) hv
  | float x => exact absurd (.float x) hv
  | text s => exact absurd (.text s) hv
  | array items inner =>
    refine ⟨']', ?_, rfl⟩
    rw [String.toList_append]
    exact List.getLast?_concat
  | table fields inner =>
    refine ⟨'\x7d', ?_, rfl⟩
    rw [String.toList_append]
    exact List.getLast?_concat

theorem powerSource_error_iff {c : Char} (hlast : cs.getLast? = some c) (hc : c.isDigit = false) :
    (∃ f, powerSource cs = .error f) ↔ 'e' ∈ cs := by
  constructor
  · intro ⟨f, hf⟩
    by_contra hmem
    rw [powerSource_of_not_mem hmem] at hf
    cases hf
  · intro hmem
    cases hdrop : cs.dropWhile (· ≠ 'e') with
    | nil => exact absurd (List.dropWhile_eq_nil_iff.mp hdrop 'e' hmem) (by simp)
    | cons e exponent =>
      cases hexponent : exponentOf exponent with
      | error f =>
        refine ⟨f, ?_⟩
        rw [powerSource, hdrop]
        dsimp only
        rw [hexponent]
        rfl
      | ok n =>
        obtain ⟨d, hd, hdigit⟩ := isDigit_of_exponentOf hexponent
        have hsuffix : exponent <:+ cs :=
          (List.suffix_cons e exponent).trans (hdrop ▸ List.dropWhile_suffix _)
        rw [getLast?_of_suffix hsuffix hd] at hlast
        cases hlast
        rw [hc] at hdigit
        cases hdigit

theorem numberSource_of_error {f : Fault} (hr : d.render host = .error f) :
    d.numberSource host = .error f := by
  rw [numberSource, hr]
  rfl

/-- The value of an entry breaks down as a number if and only if no expression is made of it. -/
theorem numberSource_error_iff {u : String} (he : Entry d v u) (h : v.IsValue ∨ Overlooked d v)
    (htext : ∀ s, v ≠ .text s) :
    (∃ f, v.numberSource host = .error f) ↔ Inexpressible host d := by
  cases hr : v.render host with
  | error f =>
    exact iff_of_true ⟨f, numberSource_of_error hr⟩
      (.unwritable he h htext (render_error_iff.mp ⟨f, hr⟩))
  | ok text =>
    have hwritable := not_unwritable_of_render hr
    rw [numberSource_of_render hr]
    rcases h with hv | ho
    · obtain ⟨source, hsource⟩ := hv.powerSource_ok htext hr
      refine iff_of_false (fun ⟨f, hf⟩ => ?_) fun h => ?_
      · rw [hsource] at hf
        cases hf
      · cases h with
        | unwritable he' _ _ h => exact hwritable (he.unique he' ▸ h)
        | exponent ho => exact ho.not_isValue he hv
    · obtain ⟨c, hlast, hc⟩ := (shows_of_render hr).getLast? (ho.not_isValue he)
      rw [powerSource_error_iff hlast hc]
      constructor
      · exact .exponent ho hr
      · intro h
        cases h with
        | unwritable he' _ _ h => exact absurd (he.unique he' ▸ h) hwritable
        | exponent ho' hr' he' =>
          obtain rfl := ho.unique ho'
          rw [hr] at hr'
          cases hr'
          exact he'

end Datum

end UnitSheet
