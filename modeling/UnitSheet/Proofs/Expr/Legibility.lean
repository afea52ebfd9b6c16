import UnitSheet.Proofs.Expr.Parser
import UnitSheet.Proofs.Token.Numeral

namespace UnitSheet.Token

variable {c : Char} {more : List Char} {k : Cut} {t : Token} {ts : List Token} {pos pos' : Nat}
variable {cs rest : List Char} {source : String} {f : Fault}

/-- If the token is a run of digits, all of them have a decimal value. -/
def Splittable (t : Token) : Prop := t.isDigitRun = true → AllDecimal t.text.toList

theorem Splittable.splitDigit (h : Splittable t) (hrun : t.isDigitRun = true) :
    ∃ digit rest, t.splitDigit = .ok (digit, rest) ∧ Splittable rest := by
  have hdec := h hrun
  simp only [isDigitRun, Bool.and_eq_true, decide_eq_true_eq, List.all_eq_true] at hrun
  obtain ⟨⟨-, hlen⟩, hall⟩ := hrun
  rw [← String.length_toList] at hlen
  have hpoint (c : Char) (hc : c ∈ t.text.toList) : c ≠ '.' := by
    rintro rfl
    exact absurd (hall '.' hc) (by decide +kernel)
  rcases htext : t.text.toList with _ | ⟨c, _ | ⟨d, cs⟩⟩
  · simp [htext] at hlen
  · simp [htext] at hlen
  · rw [htext] at hdec hpoint
    have hhead : AllDecimal [c] := fun x hx hne => hdec x (by simp_all) hne
    have htail : AllDecimal (d :: cs) := fun x hx hne => hdec x (List.mem_cons_of_mem c hx) hne
    obtain ⟨v, hv⟩ := numeralValue_of_allDecimal hhead ⟨c, by simp, hpoint c (by simp)⟩
    obtain ⟨w, hw⟩ := numeralValue_of_allDecimal htail ⟨d, by simp, hpoint d (by simp)⟩
    have hsplit : t.splitDigit = .ok ({ value := v, text := String.ofList [c] },
        { kind := .number, text := String.ofList (d :: cs), pos := t.pos + 1, value := w }) := by
      rw [Token.splitDigit, htext]
      change (numeralValue (d :: cs) >>= fun rest => numeralValue [c] >>= fun first => _) = _
      rw [hw, hv]
      rfl
    refine ⟨_, _, hsplit, fun _ => ?_⟩
    simpa using htail

theorem lasting_splittable : Parser.Lasting fun ts => ∀ t ∈ ts, Splittable t := by
  refine ⟨fun t ts h x hx => h x (List.mem_cons_of_mem t hx), fun t ts h hrun => ?_⟩
  obtain ⟨digit, rest, hsplit, hrest⟩ := (h t List.mem_cons_self).splitDigit hrun
  refine ⟨digit, rest, hsplit, fun x hx => ?_⟩
  rcases List.mem_cons.mp hx with rfl | hx
  · exact hrest
  · exact h x (List.mem_cons_of_mem t hx)

theorem cutNumber_allDecimal (h : cutNumber cs = .ok k) (hk : k.kind = .number) :
    AllDecimal (cs.takeWhile isNumeral) := by
  rw [cutNumber] at h
  split at h
  · cases h
    cases hk
  · next hrun =>
    by_contra hdec
    rw [numeralValue_of_not_allDecimal hdec] at h
    cases h

theorem Scans.splittable (h : Scans pos cs ts pos' rest) : ∀ t ∈ ts, Splittable t := by
  intro t ht hrun
  obtain ⟨c, more, k, p, hk, rfl⟩ := h.exists_cut ht
  simp only [isDigitRun, Bool.and_eq_true, decide_eq_true_eq, List.all_eq_true] at hrun
  obtain ⟨⟨hnumber, -⟩, hall⟩ := hrun
  obtain ⟨n, hn⟩ := Nat.exists_eq_add_one_of_ne_zero (Nat.ne_zero_of_lt (cut_length_pos hk))
  have hdigit : Text.isDigit c = true := hall c (by simp [Cut.token, hn])
  have hnumeral : isNumeral c = true := by simp [isNumeral, hdigit]
  rw [cut, if_pos hnumeral] at hk
  have htext : (c :: more).take k.length = (c :: more).takeWhile isNumeral := by
    rw [cutNumber_length hk]
    exact List.prefix_iff_eq_take.mp (List.takeWhile_prefix _) |>.symm
  rw [Cut.token, String.toList_ofList, htext]
  exact cutNumber_allDecimal hk hnumber

theorem tokenize_splittable (h : tokenize source = .ok ts) : ∀ t ∈ ts, Splittable t := by
  obtain ⟨us, pos, rest, hs, hend⟩ := tokenize_cases source
  rcases hend with ⟨e, -, heq⟩ | ⟨-, ⟨-, heq⟩ | ⟨c, more, f, -, -, heq⟩⟩
  · rw [heq] at h
    cases h
  · rw [heq] at h
    cases h
    intro t ht
    rcases List.mem_append.mp ht with ht | ht
    · exact hs.splittable t ht
    · intro hrun
      rw [List.mem_singleton.mp ht] at hrun
      simp [isDigitRun, endToken] at hrun
  · rw [heq] at h
    cases h

end UnitSheet.Token

namespace UnitSheet.Expr

variable {source : String} {tokens : List Token} {stop : Stop}

theorem parse_eq_ofTokens (h : Token.tokenize source = .ok tokens) (limit : Int) :
    parse source limit = ofTokens tokens source limit := by
  rw [parse, h]
  rfl

theorem parse_eq_error (h : Token.tokenize source = .error stop) (limit : Int) :
    parse source limit = .error stop := by
  rw [parse, h]
  rfl

theorem reads_ofTokens_of_tokenize (h : Token.tokenize source = .ok tokens) (limit : Int) :
    Parser.Reads (fun _ => True) (ofTokens tokens source limit) := by
  have hsplit : ∀ t ∈ tokens.takeWhile (·.kind ≠ .done), Token.Splittable t := fun t ht =>
    Token.tokenize_splittable h t ((List.takeWhile_prefix _).subset ht)
  exact Parser.reads_ofTokens Token.lasting_splittable hsplit source limit

theorem ofTokens_not_fault (h : Token.tokenize source = .ok tokens)
    (limit : Int) (f : Fault) :
    ofTokens tokens source limit ≠ .error (.fault f) :=
  (reads_ofTokens_of_tokenize h limit).not_fault f

/-- Parsing a text breaks down if and only if the text is illegible. -/
theorem parse_fault_iff (limit : Int) :
    (∃ f, parse source limit = .error (.fault f)) ↔ Token.Illegible source := by
  rw [Token.illegible_iff]
  cases h : Token.tokenize source with
  | error e =>
    simp only [parse_eq_error h limit, Except.error.injEq]
  | ok tokens =>
    constructor
    · intro ⟨f, hf⟩
      rw [parse_eq_ofTokens h] at hf
      exact absurd hf (ofTokens_not_fault h limit f)
    · intro ⟨f, hf⟩
      cases hf

end UnitSheet.Expr
