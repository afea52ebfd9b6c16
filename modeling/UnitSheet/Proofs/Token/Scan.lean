import UnitSheet.Token.Lexer

namespace UnitSheet.Token

def Cut.token (k : Cut) (cs : List Char) (pos : Nat) : Token where
  kind := k.kind
  text := String.ofList (cs.take k.length)
  pos := pos
  value := k.value
  dimension := k.dimension
  figures := k.figures

def endToken (pos : Nat) : Token := { kind := .done, text := "", pos }

/-- Tokens are cut from characters at an offset, and leave the characters behind them. -/
inductive Scans : Nat → List Char → List Token → Nat → List Char → Prop
  | nil (pos : Nat) (cs : List Char) : Scans pos cs [] pos cs
  | cons {pos : Nat} {cs : List Char} {c : Char} {more : List Char} {k : Cut} {ts : List Token}
      {pos' : Nat} {rest : List Char} (hc : cs.drop (gap cs) = c :: more) (hk : cut c more = .ok k)
      (h : Scans (pos + gap cs + k.length) ((c :: more).drop k.length) ts pos' rest) :
      Scans pos cs (k.token (c :: more) (pos + gap cs) :: ts) pos' rest

variable {cs rest more : List Char} {c : Char} {k : Cut} {ts : List Token} {pos pos' fuel : Nat}
variable {f : Fault} {source : String}

theorem cutName_length_pos {base : Nat} (hb : 0 < base) (hcs : cs ≠ []) :
    0 < (cutName base cs).length := by
  rw [cutName]
  split
  · split
    · exact List.length_pos_iff.mpr hcs
    · exact Nat.succ_pos _
    · exact Nat.succ_pos _
  · dsimp only
    split
    · exact Nat.succ_pos _
    · exact hb
  · exact hb

theorem cutOperatorName_length_pos (hcs : cs ≠ []) : 0 < (cutOperatorName cs more).length := by
  rw [cutOperatorName]
  split
  · exact List.length_pos_iff.mpr hcs
  · exact Nat.succ_pos _

theorem cutWord_length_pos (hcs : cs ≠ []) : 0 < (cutWord cs more).length := by
  have hlen : 0 < cs.length := List.length_pos_iff.mpr hcs
  rw [cutWord]
  split
  · exact Nat.succ_pos _
  · split
    · exact cutOperatorName_length_pos hcs
    · split
      · exact Nat.lt_min.mpr ⟨Nat.two_pos, hlen⟩
      · split
        · exact Nat.succ_pos _
        · exact cutName_length_pos (Nat.succ_pos _) hcs

theorem cutCommand_length_pos (hcs : cs ≠ []) : 0 < (cutCommand cs more).length := by
  rw [cutCommand]
  split
  · exact Nat.succ_pos _
  · exact cutWord_length_pos hcs

theorem cutNumber_length (h : cutNumber cs = .ok k) :
    k.length = (cs.takeWhile isNumeral).length := by
  rw [cutNumber] at h
  split at h
  · cases h
    rfl
  · cases hv : numeralValue (cs.takeWhile isNumeral) with
    | ok v =>
      rw [hv] at h
      cases h
      rfl
    | error f =>
      rw [hv] at h
      cases h

/-- Every token has a character of its own. -/
theorem cut_length_pos (h : cut c cs = .ok k) : 0 < k.length := by
  rw [cut] at h
  split at h
  · next hc =>
    rw [cutNumber_length h, List.takeWhile_cons_of_pos hc]
    exact Nat.succ_pos _
  · split at h
    · cases h
      exact cutName_length_pos Nat.one_pos (List.cons_ne_nil _ _)
    · split at h
      · cases h
        exact cutCommand_length_pos (List.cons_ne_nil _ _)
      · cases h
        exact Nat.one_pos

theorem scanFrom_end (h : cs.drop (gap cs) = []) :
    scanFrom (fuel + 1) pos cs = ⟨[endToken (pos + gap cs)], none⟩ := by
  rw [scanFrom, h]
  rfl

theorem scanFrom_fault (hc : cs.drop (gap cs) = c :: more) (hf : cut c more = .error f) :
    scanFrom (fuel + 1) pos cs = ⟨[], some f⟩ := by
  rw [scanFrom, hc]
  dsimp only
  rw [hf]

theorem scanFrom_cut (hc : cs.drop (gap cs) = c :: more) (hk : cut c more = .ok k) :
    scanFrom (fuel + 1) pos cs =
      ⟨k.token (c :: more) (pos + gap cs) ::
          (scanFrom fuel (pos + gap cs + k.length) ((c :: more).drop k.length)).tokens,
        (scanFrom fuel (pos + gap cs + k.length) ((c :: more).drop k.length)).fault⟩ := by
  rw [scanFrom, hc]
  dsimp only
  rw [hk]
  rfl

theorem length_drop_cut_lt (hc : cs.drop (gap cs) = c :: more) (hk : cut c more = .ok k) :
    ((c :: more).drop k.length).length < cs.length := by
  have hpos := cut_length_pos hk
  have hlen := congrArg List.length hc
  rw [List.length_drop, List.length_cons] at hlen
  rw [List.length_drop, List.length_cons]
  omega

theorem Scans.scanFrom_eq (h : Scans pos cs ts pos' rest) (hf : cs.length < fuel) :
    ∃ fuel', rest.length < fuel' + 1 ∧ scanFrom fuel pos cs =
      ⟨ts ++ (scanFrom (fuel' + 1) pos' rest).tokens, (scanFrom (fuel' + 1) pos' rest).fault⟩ := by
  induction h generalizing fuel with
  | nil =>
    obtain ⟨fuel', rfl⟩ := Nat.exists_eq_add_one_of_ne_zero (Nat.ne_zero_of_lt hf)
    exact ⟨fuel', hf, rfl⟩
  | cons hc hk h ih =>
    obtain ⟨fuel', rfl⟩ := Nat.exists_eq_add_one_of_ne_zero (Nat.ne_zero_of_lt hf)
    have hlt := length_drop_cut_lt hc hk
    obtain ⟨fuel'', hrest, heq⟩ := ih (show _ < fuel' by omega)
    exact ⟨fuel'', hrest, by rw [scanFrom_cut hc hk, heq]; rfl⟩

/-- Each token is cut from the front of some characters. -/
theorem Scans.exists_cut {t : Token} (h : Scans pos cs ts pos' rest) (ht : t ∈ ts) :
    ∃ c more k p, cut c more = .ok k ∧ t = k.token (c :: more) p := by
  induction h with
  | nil => cases ht
  | cons _ hk _ ih =>
    rcases List.mem_cons.mp ht with rfl | ht
    · exact ⟨_, _, _, _, hk, rfl⟩
    · exact ih ht

/-- A scan goes on to the end of the source or to a numeral without a value. -/
theorem scanFrom_scans (pos : Nat) (cs : List Char) (hf : cs.length < fuel) :
    ∃ ts pos' rest, Scans pos cs ts pos' rest ∧
      ((rest.drop (gap rest) = [] ∧
      scanFrom fuel pos cs = ⟨ts ++ [endToken (pos' + gap rest)], none⟩) ∨
        ∃ c more f, rest.drop (gap rest) = c :: more ∧ cut c more = .error f ∧
          scanFrom fuel pos cs = ⟨ts, some f⟩) := by
  induction fuel generalizing pos cs with
  | zero => exact absurd hf (Nat.not_lt_zero _)
  | succ fuel ih =>
    cases hc : cs.drop (gap cs) with
    | nil => exact ⟨[], pos, cs, .nil pos cs, .inl ⟨hc, scanFrom_end hc⟩⟩
    | cons c more =>
      cases hk : cut c more with
      | error f => exact ⟨[], pos, cs, .nil pos cs, .inr ⟨c, more, f, hc, hk, scanFrom_fault hc hk⟩⟩
      | ok k =>
        have hlt := length_drop_cut_lt hc hk
        obtain ⟨ts, pos', rest, h, hend⟩ :=
          ih (pos + gap cs + k.length) ((c :: more).drop k.length) (by omega)
        refine ⟨_, pos', rest, .cons hc hk h, ?_⟩
        rcases hend with ⟨hrest, heq⟩ | ⟨c', more', f, hrest, hf, heq⟩
        · exact .inl ⟨hrest, by rw [scanFrom_cut hc hk, heq]; rfl⟩
        · exact .inr ⟨c', more', f, hrest, hf, by rw [scanFrom_cut hc hk, heq]⟩

theorem findSome?_lexicalError?_eq_none_iff :
    ts.findSome? (lexicalError? source) = none ↔ ∀ t ∈ ts, t.malformed? = none := by
  rw [List.findSome?_eq_none_iff]
  simp only [lexicalError?, Option.map_eq_none_iff]

theorem scans_length (source : String) : source.toList.length < source.length + 1 := by
  rw [String.length_toList]
  exact Nat.lt_succ_self _

theorem findSome?_lexicalError?_append_end :
    (ts ++ [endToken pos]).findSome? (lexicalError? source) = ts.findSome?
    (lexicalError? source) := by
  rw [List.findSome?_append]
  exact Option.or_none

/-- A source is cut into tokens up to its end, or up to a numeral without a value; malformed text
before is reported first. -/
theorem tokenize_cases (source : String) : ∃ ts pos rest, Scans 0 source.toList ts pos rest ∧
    ((∃ e, ts.findSome? (lexicalError? source) = some e ∧
        tokenize source = .error (.failure (.lexical e))) ∨
      (∀ t ∈ ts, t.malformed? = none) ∧
        ((rest.drop (gap rest) = [] ∧ tokenize source = .ok (ts ++ [endToken (pos + gap rest)])) ∨
          ∃ c more f, rest.drop (gap rest) = c :: more ∧ cut c more = .error f ∧
            tokenize source = .error (.fault f))) := by
  obtain ⟨ts, pos, rest, hs, hend⟩ := scanFrom_scans 0 source.toList (scans_length source)
  refine ⟨ts, pos, rest, hs, ?_⟩
  rw [tokenize, scan]
  cases hwell : ts.findSome? (lexicalError? source) with
  | some e =>
    refine .inl ⟨e, rfl, ?_⟩
    rcases hend with ⟨-, heq⟩ | ⟨c, more, f, -, -, heq⟩
    · rw [heq]
      dsimp only
      rw [findSome?_lexicalError?_append_end, hwell]
    · rw [heq]
      dsimp only
      rw [hwell]
  | none =>
    refine .inr ⟨findSome?_lexicalError?_eq_none_iff.mp hwell, ?_⟩
    rcases hend with ⟨hrest, heq⟩ | ⟨c, more, f, hrest, hcut, heq⟩
    · refine .inl ⟨hrest, ?_⟩
      rw [heq]
      dsimp only
      rw [findSome?_lexicalError?_append_end, hwell]
    · refine .inr ⟨c, more, f, hrest, hcut, ?_⟩
      rw [heq]
      dsimp only
      rw [hwell]

end UnitSheet.Token
