import UnitSheet.Proofs.Token.Respacing

namespace UnitSheet.Token

variable {cs more rest body : List Char} {c : Char} {k : Cut} {t : Token} {ts : List Token}
variable {pos pos' base : Nat}

/-- From an offset on, characters are made of the texts of tokens, each at its own position, and of
gaps. -/
inductive Tiles : Nat → List Char → List Token → Prop
  | nil {pos : Nat} {cs : List Char} (hsep : IsGap cs) : Tiles pos cs []
  | cons {pos : Nat} {cs sep after : List Char} {t : Token} {ts : List Token}
      (hcs : cs = sep ++ (t.text.toList ++ after)) (hsep : IsGap sep)
      (hpos : t.pos = (pos + sep.length : Nat)) (hne : t.text ≠ "")
      (h : Tiles (pos + sep.length + t.text.length) after ts) : Tiles pos cs (t :: ts)

theorem isGap_take_gap (cs : List Char) : IsGap (cs.take (gap cs)) := by
  fun_induction gap cs with
  | case1 c cs hc ih => exact .command hc ih
  | case2 => exact .nil
  | case3 c cs _ hc ih => exact .blank hc ih
  | case4 => exact .nil
  | case5 => exact .nil

theorem gap_le_length (cs : List Char) : gap cs ≤ cs.length := by
  fun_induction gap cs with
  | case1 c cs hc ih => exact Nat.add_le_add_right ih 2
  | case2 => exact Nat.zero_le _
  | case3 c cs _ hc ih => exact Nat.add_le_add_right ih 1
  | case4 => exact Nat.zero_le _
  | case5 => exact Nat.zero_le _

theorem gap_take_gap_append (cs more : List Char) :
    gap (cs.take (gap cs) ++ more) = gap cs + gap more := by
  rw [(isGap_take_gap cs).gap_append, List.length_take_of_le (gap_le_length cs)]

theorem cutNumber_length_le (h : cutNumber cs = .ok k) : k.length ≤ cs.length := by
  rw [cutNumber_length h]
  exact (List.takeWhile_prefix isNumeral).length_le

theorem cutName_length_le (hb : base ≤ cs.length) : (cutName base cs).length ≤ cs.length := by
  have hdrop := List.length_drop (i := base) (l := cs)
  rw [cutName]
  split
  · next more hmore =>
    rw [hmore, List.length_cons, List.length_cons] at hdrop
    split
    · exact Nat.le_refl _
    · next hidx =>
      obtain ⟨hlt, -⟩ := idxOf?_take_append hidx []
      dsimp only
      omega
    · next n hidx =>
      obtain ⟨hlt, -⟩ := idxOf?_take_append hidx []
      dsimp only
      omega
  · next d more _ hmore =>
    rw [hmore, List.length_cons, List.length_cons] at hdrop
    dsimp only
    split <;> omega
  · exact hb

theorem cutOperatorName_length_le (h : "\\operatorname".length + 1 + more.length = cs.length) :
    (cutOperatorName cs more).length ≤ cs.length := by
  rw [cutOperatorName]
  split
  · exact Nat.le_refl _
  · next n hidx =>
    obtain ⟨hlt, -⟩ := idxOf?_take_append hidx []
    dsimp only
    omega

theorem cutWord_length_le : (cutWord ('\\' :: body) body).length ≤ body.length + 1 := by
  have hletters := (List.takeWhile_prefix Char.isAlpha (l := body)).length_le
  rcases cutWord_cases (rfl : body.takeWhile Char.isAlpha = _) with ⟨r, hrel⟩ | ⟨more, hw,
    hd⟩ | hplain
  · rw [cutWord_of_relation rfl hrel]
    exact Nat.succ_le_succ hletters
  · rw [cutWord_of_operator rfl hw hd]
    apply cutOperatorName_length_le
    have hlen := congrArg List.length hd
    have hword : (body.takeWhile Char.isAlpha).length = 12 := by
      rw [← String.length_ofList, hw]
      rfl
    have hcommand : "\\operatorname".length = 13 := rfl
    rw [List.length_drop, List.length_cons] at hlen
    rw [List.length_cons]
    omega
  · rw [hplain.cutWord_eq]
    split
    · exact Nat.min_le_right _ _
    · split
      · exact Nat.succ_le_succ hletters
      · exact cutName_length_le (Nat.succ_le_succ hletters)

theorem cutCommand_length_le : (cutCommand ('\\' :: body) body).length ≤ body.length + 1 := by
  rw [cutCommand]
  split
  · next hk => exact Nat.succ_le_succ (keyword_length hk).2
  · exact cutWord_length_le

theorem cut_length_le (h : cut c more = .ok k) : k.length ≤ (c :: more).length := by
  rw [cut] at h
  split at h
  · exact cutNumber_length_le h
  · split at h
    · cases h
      exact cutName_length_le (Nat.succ_le_succ (Nat.zero_le _))
    · split at h
      · next hc =>
        cases h
        subst hc
        exact cutCommand_length_le
      · cases h
        exact Nat.succ_le_succ (Nat.zero_le _)

theorem length_token_text (h : cut c more = .ok k) (pos : Nat) :
    (k.token (c :: more) pos).text.length = k.length := by
  rw [Cut.token, String.length_ofList]
  exact List.length_take_of_le (cut_length_le h)

theorem token_text_ne (h : cut c more = .ok k) (pos : Nat) :
    (k.token (c :: more) pos).text ≠ "" := by
  intro hnil
  have hlength := length_token_text h pos
  rw [hnil] at hlength
  exact absurd (cut_length_pos h) (Nat.not_lt.mpr (Nat.le_of_eq hlength.symm))

theorem Scans.tiles (h : Scans pos cs ts pos' rest) (hend : rest.drop (gap rest) = []) :
    Tiles pos cs ts ∧ pos' + gap rest = pos + cs.length := by
  induction h with
  | nil pos cs =>
    have hle := gap_le_length cs
    have hlen := List.drop_eq_nil_iff.mp hend
    have htake := isGap_take_gap cs
    rw [List.take_of_length_le hlen] at htake
    exact ⟨.nil htake, by omega⟩
  | @cons pos cs c more k ts pos' rest hc hk h ih =>
    obtain ⟨htiles, hpos⟩ := ih hend
    have hle := gap_le_length cs
    have hsep : (cs.take (gap cs)).length = gap cs := List.length_take_of_le hle
    have htext := length_token_text hk (pos + gap cs)
    have hcs : cs = cs.take (gap cs) ++
        ((k.token (c :: more) (pos + gap cs)).text.toList ++ (c :: more).drop k.length) := by
      rw [Cut.token, String.toList_ofList, List.take_append_drop, ← hc, List.take_append_drop]
    have hne := token_text_ne hk (pos + gap cs)
    have hstart : pos + gap cs = pos + (cs.take (gap cs)).length := congrArg (pos + ·) hsep.symm
    constructor
    · refine .cons hcs (isGap_take_gap cs) (congrArg Nat.cast hstart) hne ?_
      rwa [← hstart, htext]
    · have hlen := congrArg List.length hc
      have hcut := cut_length_le hk
      rw [List.length_drop] at hlen hpos
      omega

theorem Tiles.length_le (h : Tiles pos cs ts) : ts.length ≤ cs.length := by
  induction h with
  | nil => exact Nat.zero_le _
  | @cons pos cs sep after t ts hcs _ _ hne _ ih =>
    have htext : t.text.length ≠ 0 := fun h => hne (String.length_eq_zero_iff.mp h)
    rw [hcs, List.length_append, List.length_append, List.length_cons, String.length_toList]
    omega

theorem Tiles.le_pos (h : Tiles pos cs ts) : ∀ t ∈ ts, (pos : Int) ≤ t.pos := by
  induction h with
  | nil => exact fun _ h => by cases h
  | cons _ _ hpos _ _ ih =>
    intro u hu
    rcases List.mem_cons.mp hu with rfl | hu
    · omega
    · have hle := ih u hu
      omega

theorem Tiles.pairwise (h : Tiles pos cs ts) :
    ts.Pairwise fun (t u : Token) => t.pos + t.text.length ≤ u.pos := by
  induction h with
  | nil => exact .nil
  | cons _ _ hpos _ h ih =>
    refine .cons (fun u hu => ?_) ih
    have hle := h.le_pos u hu
    omega

/-- The text of a token is the piece of the characters at its position. -/
theorem Tiles.slice (h : Tiles pos cs ts) (ht : t ∈ ts) :
    t.text ≠ "" ∧ ∃ i : Nat, t.pos = (pos + i : Nat) ∧ (cs.drop i).take t.text.length =
      t.text.toList := by
  induction h with
  | nil => cases ht
  | @cons pos cs sep after u ts hcs _ hpos hne _ ih =>
    subst hcs
    rcases List.mem_cons.mp ht with rfl | ht
    · refine ⟨hne, sep.length, hpos, ?_⟩
      rw [List.drop_left]
      exact List.take_left' String.length_toList
    · obtain ⟨hne, i, hi, hslice⟩ := ih ht
      have hdrop : (sep ++ (u.text.toList ++ after)).drop (sep.length + (u.text.toList.length + i))
          = after.drop i := by
        rw [List.drop_length_add_append, List.drop_length_add_append]
      refine ⟨hne, sep.length + (u.text.toList.length + i), ?_, by rw [hdrop, hslice]⟩
      rw [hi, String.length_toList]
      omega

theorem tokenize_tiles {source : String} {tokens : List Token} (h : tokenize source = .ok tokens) :
    ∃ body, tokens = body ++ [endToken source.length] ∧ (∀ t ∈ body, t.kind ≠ .done) ∧
      Tiles 0 source.toList body := by
  obtain ⟨ts, pos, rest, hs, ⟨e, -, heq⟩ | ⟨-, ⟨hend, heq⟩ | ⟨c, more, f, -, -, heq⟩⟩⟩ :=
    tokenize_cases source
  · rw [heq] at h
    cases h
  · rw [heq] at h
    cases h
    obtain ⟨htiles, hpos⟩ := hs.tiles hend
    rw [Nat.zero_add, String.length_toList] at hpos
    exact ⟨ts, by rw [hpos], hs.kind_ne_done, htiles⟩
  · rw [heq] at h
    cases h

theorem scan_eq_of_scans {source : String} {fuel : Nat} (h : Scans 0 source.toList ts pos rest)
    (hend : rest.drop (gap rest) = []) (hf : source.length < fuel) :
    scanFrom fuel 0 source.toList = ⟨ts ++ [endToken (pos + gap rest)], none⟩ := by
  rw [← String.length_toList] at hf
  obtain ⟨fuel', -, heq⟩ := h.scanFrom_eq hf
  rwa [scanFrom_end hend] at heq

/-- Where no numeral is without a value, a scan comes to the end of the source, however many more
tokens it might cut. The tokens before the end, malformed ones included, are nonempty pieces of the
source at their positions, in order and without overlap, and between them there are only gaps. -/
theorem scan_tiles (source : String) (h : (scan source).fault = none) :
    (∀ fuel, source.length < fuel → scanFrom fuel 0 source.toList = scan source) ∧
      ∃ ts, (scan source).tokens = ts ++ [endToken source.length] ∧ ts.length ≤ source.length ∧
        (∀ t ∈ ts, t.kind ≠ .done) ∧ Tiles 0 source.toList ts ∧
        (∀ t ∈ ts, t.text ≠ "" ∧
          ∃ i : Nat, t.pos = i ∧ (source.toList.drop i).take t.text.length = t.text.toList) ∧
        ts.Pairwise fun (t u : Token) => t.pos + t.text.length ≤ u.pos := by
  obtain ⟨ts, pos, rest, hs, ⟨hend, -⟩ | ⟨c, more, f, -, -, heq⟩⟩ :=
    scanFrom_scans 0 source.toList (scans_length source)
  · have hscan : scan source = ⟨ts ++ [endToken (pos + gap rest)], none⟩ :=
      scan_eq_of_scans hs hend (Nat.lt_succ_self _)
    obtain ⟨htiles, hpos⟩ := hs.tiles hend
    rw [Nat.zero_add, String.length_toList] at hpos
    rw [hscan]
    refine ⟨fun fuel hf => scan_eq_of_scans hs hend hf, ts, by rw [hpos], ?_, hs.kind_ne_done,
      htiles, ?_, htiles.pairwise⟩
    · rw [← String.length_toList]
      exact htiles.length_le
    · intro t ht
      obtain ⟨hne, i, hi, hslice⟩ := htiles.slice ht
      exact ⟨hne, i, by rw [hi, Nat.zero_add], hslice⟩
  · rw [scan, heq] at h
    cases h

def malformedSource : String := "2..5 x_\x7b\x7d\\;\\"

theorem malformedSource_tiles : (scan malformedSource).fault = none ∧
    ∃ ts, (scan malformedSource).tokens = ts ++ [endToken 12] ∧ ts.map
      (·.text) = ["2..5", "x_\x7b\x7d", "\\"] ∧ Tiles 0 malformedSource.toList ts := by
  have hfault : (scan malformedSource).fault = none := by decide +kernel
  have htexts : (scan malformedSource).tokens.map (·.text) = ["2..5", "x_\x7b\x7d", "\\", ""] := by
    decide +kernel
  obtain ⟨-, ts, htokens, -, -, htiles, -⟩ := scan_tiles malformedSource hfault
  refine ⟨hfault, ts, htokens, ?_, htiles⟩
  rw [htokens, List.map_append] at htexts
  exact List.append_inj_left' htexts rfl

end UnitSheet.Token
