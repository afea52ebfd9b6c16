import UnitSheet.Proofs.Token.Tiling

namespace UnitSheet.Token

variable {cs rest more : List Char} {c : Char} {k : Cut} {t : Token} {ts us : List Token}
variable {pos pos' p : Nat} {source : String} {e : LexicalError} {f : Failure}

/-- The tokens of a scan are cut one after the other. -/
theorem Scans.split (h : Scans pos cs (ts ++ us) pos' rest) :
    ∃ p mid, Scans pos cs ts p mid ∧ Scans p mid us pos' rest := by
  induction ts generalizing pos cs with
  | nil => exact ⟨pos, cs, .nil pos cs, h⟩
  | cons t ts ih =>
    cases h with
    | cons hc hk h =>
      obtain ⟨p, mid, hts, hus⟩ := ih h
      exact ⟨p, mid, .cons hc hk hts, hus⟩

theorem cut_take (hk : cut c more = .ok k) (hwell : ∀ m, k.kind ≠ .malformed m)
    (hgap : gap (c :: more) = 0)
    {i : Nat} (hi : k.length ≤ i) :
    ∃ m, (c :: more).take i = c :: more.take m ∧ gap (c :: more.take m) = 0 ∧
      cut c (more.take m) = .ok k := by
  have hend : Parted [] := fun _ h => by cases h
  obtain ⟨n, hn, hlength, hcommand, hcut⟩ := cut_take_append hk hwell hend
  obtain ⟨m, rfl⟩ : ∃ m, i = m + 1 := Nat.exists_eq_add_one_of_ne_zero (by omega)
  have hagain := hcut m (by omega)
  have hzero : gap (c :: (more.take m ++ [])) = 0 := gap_take_append hgap fun hbackslash => by
    have hpos := hcommand hbackslash
    omega
  rw [List.append_nil] at hagain hzero
  exact ⟨m, List.take_succ_cons, hzero, hagain⟩

/-- Well-formed tokens are cut again if the characters end somewhere behind them. -/
theorem Scans.take (h : Scans pos cs ts pos' rest) (hwell : ∀ t ∈ ts, t.malformed? = none) :
    ∃ n, n ≤ cs.length ∧ pos' = pos + n ∧ rest = cs.drop n ∧
      ∀ j, Scans pos (cs.take (n + j)) ts pos' (rest.take j) := by
  induction h with
  | nil pos cs =>
    refine ⟨0, Nat.zero_le _, rfl, rfl, fun j => ?_⟩
    rw [Nat.zero_add]
    exact .nil pos _
  | @cons pos cs c more k ts pos' rest hc hk _ ih =>
    have hkind := kind_ne_malformed (hwell _ List.mem_cons_self)
    obtain ⟨n, hn, hpos, hrest, htake⟩ := ih fun t ht => hwell t (List.mem_cons_of_mem _ ht)
    have hgap : gap (c :: more) = 0 := hc ▸ gap_drop_gap cs
    have hle := cut_length_le hk
    have hblanks := gap_le_length cs
    have hlen := congrArg List.length hc
    rw [List.length_drop] at hlen hn
    refine ⟨gap cs + (k.length + n), by omega, by omega, ?_, fun j => ?_⟩
    · rw [hrest, ← hc, List.drop_drop, List.drop_drop]
    · obtain ⟨m, hm, hzero, hagain⟩ :=
        cut_take hk hkind hgap (i := k.length + (n + j)) (Nat.le_add_right _ _)
      have hsplit : cs.take (gap cs + (k.length + n) + j) = cs.take (gap cs) ++
          (c :: more.take m) := by
        rw [Nat.add_assoc, Nat.add_assoc, List.take_add, hc, hm]
      have hlead : gap (cs.take (gap cs) ++ (c :: more.take m)) = gap cs := by
        rw [gap_take_gap_append, hzero, Nat.add_zero]
      have hfront : (cs.take (gap cs) ++ (c :: more.take m)).drop (gap cs) = c :: more.take m :=
        List.drop_left' (List.length_take_of_le hblanks)
      have htext : (c :: more.take m).take k.length = (c :: more).take k.length := by
        rw [← hm, List.take_take, Nat.min_eq_left (Nat.le_add_right _ _)]
      have hnext : (c :: more.take m).drop k.length = ((c :: more).drop k.length).take (n + j) := by
        rw [← hm, List.drop_take, Nat.add_sub_cancel_left]
      have htoken : k.token (c :: more) (pos + gap cs) =
          k.token (c :: more.take m) (pos + gap cs) := by
        rw [Cut.token, Cut.token, htext]
      have hscans := htake j
      rw [← hnext] at hscans
      rw [hsplit, htoken]
      generalize cs.take (gap cs) ++ (c :: more.take m) = front at hlead hfront ⊢
      rw [← hlead] at hfront hscans ⊢
      exact .cons hfront hagain hscans

/-- An error of the lexer is at malformed text of a source: it shows that text, which is the piece
of the source at its place, and the source up to there has the tokens before. -/
structure Breaks (source : String) (e : LexicalError) (p : Nat) : Prop where
  place : e.place = ⟨source, p⟩
  text_ne : e.text ≠ ""
  slice : (source.toList.drop p).take e.text.length = e.text.toList
  tokens : ∃ before bad after, (scan source).tokens = before ++ bad :: after ∧
    (∀ t ∈ before, t.malformed? = none) ∧ lexicalError? source bad = some e ∧
    tokenize (String.ofList (source.toList.take p)) = .ok (before ++ [endToken p])

theorem add_length_le {text : String} (hne : text ≠ "")
    (h : (cs.drop p).take text.length = text.toList) : p + text.length ≤ cs.length := by
  have hlen := congrArg List.length h
  have hpos : text.length ≠ 0 := fun hzero => hne (String.length_eq_zero_iff.mp hzero)
  rw [List.length_take, List.length_drop, String.length_toList] at hlen
  omega

theorem Breaks.le_length (h : Breaks source e p) : p + e.text.length ≤ source.length := by
  rw [← String.length_toList]
  exact add_length_le h.text_ne h.slice

theorem Scans.tokenize_take (h : Scans 0 source.toList ts p rest)
    (hwell : ∀ t ∈ ts, t.malformed? = none) :
    tokenize (String.ofList (source.toList.take (p + gap rest))) = .ok
      (ts ++ [endToken (p + gap rest)]) := by
  obtain ⟨n, -, hp, -, htake⟩ := h.take hwell
  rw [Nat.zero_add] at hp
  subst hp
  have hgap := gap_take_gap_append rest []
  rw [List.append_nil, gap, Nat.add_zero] at hgap
  have hend : (rest.take (gap rest)).drop (gap (rest.take (gap rest))) = [] := by
    rw [hgap]
    exact List.drop_eq_nil_of_le (List.length_take_le _ _)
  have hscans := htake (gap rest)
  rw [← String.toList_ofList (l := source.toList.take _)] at hscans
  have htokens := hscans.tokenize_eq hwell hend
  rwa [hgap] at htokens

theorem Scans.tokens_eq (h : Scans 0 source.toList ts p rest)
    (hc : rest.drop (gap rest) = c :: more)
    (hk : cut c more = .ok k) :
    ∃ us, (scan source).tokens = ts ++ k.token (c :: more) (p + gap rest) :: us := by
  obtain ⟨fuel, -, heq⟩ := h.scanFrom_eq (scans_length source)
  rw [scanFrom_cut hc hk] at heq
  exact ⟨_, congrArg Scan.tokens heq⟩

/-- An error before the tokens are complete is one of the lexer, at the first malformed text. -/
theorem tokenize_breaks (h : tokenize source = .error (.failure f)) :
    ∃ e p, f = .lexical e ∧ Breaks source e p := by
  obtain ⟨ts, pos, rest, hs, ⟨e, he, heq⟩ | ⟨-, ⟨-, heq⟩ | ⟨c, more, fault, -, -, heq⟩⟩⟩ :=
    tokenize_cases source
  · rw [heq] at h
    cases h
    obtain ⟨before, bad, after, rfl, hbad, hbefore⟩ := List.findSome?_eq_some_iff.mp he
    have hwell : ∀ t ∈ before, t.malformed? = none :=
      fun t ht => Option.map_eq_none_iff.mp (hbefore t ht)
    obtain ⟨p, mid, hscans, hmore⟩ := hs.split
    obtain ⟨n, -, hp, hmid, -⟩ := hscans.take hwell
    rw [Nat.zero_add] at hp
    subst hp hmid
    cases hmore with
    | @cons _ _ c more k _ _ _ hc hk _ =>
      have hsource : source.toList.drop (p + gap (source.toList.drop p)) = c :: more := by
        rw [← List.drop_drop, hc]
      have hlength := length_token_text hk (p + gap (source.toList.drop p))
      obtain ⟨us, htokens⟩ := hscans.tokens_eq hc hk
      obtain ⟨cause, hcause, rfl⟩ := Option.map_eq_some_iff.mp hbad
      refine ⟨_, _, rfl, rfl, token_text_ne hk (p + gap (source.toList.drop p)), ?_, before, _, us,
        htokens, hwell, hbad, hscans.tokenize_take hwell⟩
      rw [hsource, hlength, Cut.token, String.toList_ofList]
  · rw [heq] at h
    cases h
  · rw [heq] at h
    cases h

end UnitSheet.Token
