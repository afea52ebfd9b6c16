import Mathlib.Data.List.Basic
import UnitSheet.Proofs.Token.Scan

namespace UnitSheet

def AllDecimal (numeral : List Char) : Prop := ∀ c ∈ numeral, c ≠ '.' → Text.decimalDigit? c ≠ none

theorem mapM_decimalDigit?_eq_none_iff {cs : List Char} :
    cs.mapM Text.decimalDigit? = none ↔ ∃ c ∈ cs, Text.decimalDigit? c = none := by
  induction cs with
  | nil => simp
  | cons c cs ih =>
    rw [List.mapM_cons, List.exists_mem_cons_iff, ← ih]
    cases Text.decimalDigit? c with
    | none => simp
    | some d =>
      cases cs.mapM Text.decimalDigit? with
      | none => simp
      | some ds => simp

theorem numeralValue_of_allDecimal {numeral : List Char} (h : AllDecimal numeral)
    (hd : ∃ c ∈ numeral, c ≠ '.') : ∃ v, numeralValue numeral = .ok v := by
  rw [numeralValue]
  cases hds : (numeral.filter (· ≠ '.')).mapM Text.decimalDigit? with
  | none =>
    obtain ⟨c, hc, hnone⟩ := mapM_decimalDigit?_eq_none_iff.mp hds
    obtain ⟨hmem, hpoint⟩ := List.mem_filter.mp hc
    exact absurd hnone (h c hmem (by simpa using hpoint))
  | some ds =>
    cases ds with
    | nil =>
      obtain ⟨c, hmem, hpoint⟩ := hd
      have hc : c ∈ numeral.filter (· ≠ '.') := List.mem_filter.mpr ⟨hmem, by simpa using hpoint⟩
      obtain ⟨c', cs, hcs⟩ := List.exists_cons_of_ne_nil (List.ne_nil_of_mem hc)
      rw [hcs, List.mapM_cons] at hds
      cases hc' : Text.decimalDigit? c' <;> cases hcs' : cs.mapM Text.decimalDigit? <;>
        simp [hc', hcs'] at hds
    | cons d ds => exact ⟨_, rfl⟩

theorem numeralValue_of_not_allDecimal {numeral : List Char} (h : ¬ AllDecimal numeral) :
    numeralValue numeral = .error (.notDecimal (String.ofList numeral)) := by
  simp only [AllDecimal, not_forall, not_not] at h
  obtain ⟨c, hmem, hpoint, hnone⟩ := h
  have hc : c ∈ numeral.filter (· ≠ '.') := List.mem_filter.mpr ⟨hmem, by simpa using hpoint⟩
  rw [numeralValue, mapM_decimalDigit?_eq_none_iff.mpr ⟨c, hc, hnone⟩]

namespace Token

variable {cs more rest : List Char} {c : Char} {f : Fault} {k : Cut} {t : Token} {ts : List Token}
variable {pos pos' : Nat} {source : String}

/-- The characters start with digits and at most one point, and one digit has no decimal value. -/
def Ornamented (cs : List Char) : Prop :=
  (cs.takeWhile isNumeral).count '.' ≤ 1 ∧ ¬ AllDecimal (cs.takeWhile isNumeral)

theorem cutNumber_of_ornamented (h : Ornamented cs) :
    cutNumber cs = .error (.notDecimal (String.ofList (cs.takeWhile isNumeral))) := by
  obtain ⟨hcount, hdec⟩ := h
  have hpoint : cs.takeWhile isNumeral ≠ ['.'] := by
    intro hp
    rw [hp] at hdec
    exact hdec fun c hc hne => absurd (List.mem_singleton.mp hc) hne
  rw [cutNumber, if_neg (by simp only [hpoint, or_false]; omega),
    numeralValue_of_not_allDecimal hdec]
  rfl

theorem cutNumber_of_not_ornamented (h : ¬ Ornamented (c :: more)) (hc : isNumeral c = true) :
    ∃ k, cutNumber (c :: more) = .ok k := by
  rw [cutNumber]
  split
  · exact ⟨_, rfl⟩
  · next hrun =>
    obtain ⟨hcount, hpoint⟩ := not_or.mp hrun
    have hdec : AllDecimal ((c :: more).takeWhile isNumeral) :=
      Classical.byContradiction fun hdec => h ⟨by omega, hdec⟩
    have hdigit : ∃ d ∈ (c :: more).takeWhile isNumeral, d ≠ '.' := by
      rw [List.takeWhile_cons_of_pos hc] at hcount hpoint ⊢
      by_cases hne : c = '.'
      · subst hne
        cases hmore : more.takeWhile isNumeral with
        | nil => exact absurd (by rw [hmore]) hpoint
        | cons d ds =>
          refine ⟨d, by simp, fun hd => hcount ?_⟩
          rw [hmore, hd]
          simp
      · exact ⟨c, List.mem_cons_self, hne⟩
    obtain ⟨v, hv⟩ := numeralValue_of_allDecimal hdec hdigit
    exact ⟨_, by rw [hv]; rfl⟩

theorem cut_eq_error_iff : cut c more = .error f ↔
    Ornamented (c :: more) ∧ f = .notDecimal (String.ofList ((c :: more).takeWhile isNumeral)) := by
  by_cases hc : isNumeral c = true
  · rw [cut, if_pos hc]
    by_cases ho : Ornamented (c :: more)
    · rw [cutNumber_of_ornamented ho]
      constructor
      · intro h
        cases h
        exact ⟨ho, rfl⟩
      · rintro ⟨-, rfl⟩
        rfl
    · obtain ⟨k, hk⟩ := cutNumber_of_not_ornamented ho hc
      rw [hk]
      constructor
      · intro h
        cases h
      · rintro ⟨h, -⟩
        exact absurd h ho
  · have hrun : (c :: more).takeWhile isNumeral = [] := List.takeWhile_cons_of_neg hc
    constructor
    · intro h
      rw [cut, if_neg hc] at h
      split at h
      · cases h
      · split at h <;> cases h
    · rintro ⟨⟨-, hdec⟩, -⟩
      rw [hrun] at hdec
      exact absurd (fun _ h => by cases h) hdec

/-- Well-formed tokens lead from the start of the source to an ornamented numeral. -/
def Illegible (source : String) : Prop :=
  ∃ ts pos rest, Scans 0 source.toList ts pos rest ∧ (∀ t ∈ ts, t.malformed? = none) ∧
    Ornamented (rest.drop (gap rest))

/-- A source is illegible if and only if its tokens break down. -/
theorem illegible_iff : Illegible source ↔ ∃ f, tokenize source = .error (.fault f) := by
  constructor
  · rintro ⟨ts, pos, rest, hs, hwell, ho⟩
    obtain ⟨fuel, -, heq⟩ := hs.scanFrom_eq (scans_length source)
    cases hrest : rest.drop (gap rest) with
    | nil =>
      rw [hrest] at ho
      exact absurd (fun _ h => by cases h) ho.2
    | cons c more =>
      rw [hrest] at ho
      have hcut := cut_eq_error_iff.mpr ⟨ho, rfl⟩
      rw [scanFrom_fault hrest hcut, List.append_nil] at heq
      refine ⟨.notDecimal (String.ofList ((c :: more).takeWhile isNumeral)), ?_⟩
      rw [tokenize, scan, heq]
      dsimp only
      rw [findSome?_lexicalError?_eq_none_iff.mpr hwell]
  · rintro ⟨f, h⟩
    obtain ⟨ts, pos, rest, hs, hend⟩ := tokenize_cases source
    rcases hend with ⟨e, -, heq⟩ | ⟨hwell, ⟨-, heq⟩ | ⟨c, more, f', hrest, hcut, heq⟩⟩
    · rw [heq] at h
      cases h
    · rw [heq] at h
      cases h
    · refine ⟨ts, pos, rest, hs, hwell, ?_⟩
      rw [hrest]
      exact (cut_eq_error_iff.mp hcut).1

end Token

end UnitSheet
