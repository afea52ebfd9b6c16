import Mathlib.Data.List.Forall2
import UnitSheet.Proofs.Token.Spacing

namespace UnitSheet.Token

variable {cs rest more after sep lead : List Char} {c : Char} {k : Cut} {t t' : Token}
variable {ts ts' tokens : List Token} {n pos pos' : Nat} {source source' : String}

/-- Tokens that differ in their positions at most. -/
structure Same (t t' : Token) : Prop where
  kind : t'.kind = t.kind
  text : t'.text = t.text
  value : t'.value = t.value
  dimension : t'.dimension = t.dimension
  figures : t'.figures = t.figures

/-- The texts of tokens in order with a gap behind each of them, which only the last one may
lack. -/
inductive Spaced : List Token → List Char → Prop
  | nil : Spaced [] []
  | cons {t : Token} {ts : List Token} {sep cs : List Char} (hsep : IsGap sep)
      (hne : ts ≠ [] → sep ≠ [])
      (h : Spaced ts cs) : Spaced (t :: ts) (t.text.toList ++ (sep ++ cs))

/-- The source is made of the texts of the tokens with gaps between them, and maybe at both ends. -/
def Respaces (ts : List Token) (source : String) : Prop :=
  ∃ lead cs, IsGap lead ∧ Spaced ts cs ∧ source.toList = lead ++ cs

theorem Spaced.parted (h : Spaced ts cs) (hsep : IsGap sep) (hne : ts ≠ [] → sep ≠ []) :
    Parted (sep ++ cs) := by
  by_cases hnil : sep = []
  · have hts : ts = [] := Classical.byContradiction fun hts => hne hts hnil
    subst hts hnil
    cases h
    exact fun _ hc => by cases hc
  · exact hsep.parted hnil

theorem kind_ne_malformed (h : (k.token cs pos).malformed? = none) (m : Malformed) :
    k.kind ≠ .malformed m := by
  intro hm
  rw [malformed?, Cut.token, hm] at h
  cases h

/-- A scan of the same texts with other gaps gives the same tokens. -/
theorem Scans.respace (h : Scans pos cs ts pos' rest) (hwell : ∀ t ∈ ts, t.malformed? = none)
    (hs : Spaced ts after) (hlead : IsGap lead) (q : Nat) :
    ∃ ts' q' rest', Scans q (lead ++ after) ts' q' rest' ∧ List.Forall₂ Same ts ts' ∧
      IsGap rest' := by
  induction h generalizing after lead q with
  | nil =>
    cases hs
    rw [List.append_nil]
    exact ⟨[], q, lead, .nil q lead, .nil, hlead⟩
  | @cons pos cs c more k ts pos' rest hc hk _ ih =>
    cases hs with
    | @cons _ _ sep after hsep hne hs =>
      have hkind := kind_ne_malformed (hwell _ List.mem_cons_self)
      obtain ⟨n, hn, hlength, hcommand, hcut⟩ := cut_take_append hk hkind (hs.parted hsep hne)
      have htext : (k.token (c :: more) (pos + gap cs)).text.toList = c :: more.take n := by
        rw [Cut.token, String.toList_ofList, hlength, List.take_succ_cons]
      have hgap : gap (lead ++ (c :: (more.take n ++ (sep ++ after)))) = lead.length := by
        have hzero : gap (c :: more) = 0 := hc ▸ gap_drop_gap cs
        have hpos := fun hbackslash => And.intro (hcommand hbackslash)
          (Nat.lt_of_lt_of_le (hcommand hbackslash) hn)
        rw [hlead.gap_append, gap_take_append hzero hpos, Nat.add_zero]
      have hdrop : (lead ++ (c :: (more.take n ++ (sep ++ after)))).drop lead.length =
          c :: (more.take n ++ (sep ++ after)) := List.drop_left
      have htake : (more.take n ++ (sep ++ after)).take n = more.take n :=
        List.take_left' (List.length_take_of_le hn)
      have hrest : (more.take n ++ (sep ++ after)).drop n = sep ++ after :=
        List.drop_left' (List.length_take_of_le hn)
      obtain ⟨ts', q', rest', hscans, hsame, hend⟩ :=
        ih (fun t ht => hwell t (List.mem_cons_of_mem _ ht)) hs hsep (q + lead.length + k.length)
      rw [htext, List.cons_append]
      refine ⟨k.token (c :: (more.take n ++ (sep ++ after))) (q + lead.length) :: ts', q', rest',
        ?_, ?_, hend⟩
      · rw [← hgap] at hdrop hscans ⊢
        apply Scans.cons hdrop (hcut n (Nat.le_refl n))
        rw [hlength, List.drop_succ_cons, hrest]
        rwa [hlength] at hscans
      · refine .cons ⟨rfl, ?_, rfl, rfl, rfl⟩ hsame
        rw [Cut.token, Cut.token, hlength, List.take_succ_cons, List.take_succ_cons, htake]

theorem cutNumber_kind (h : cutNumber cs = .ok k) :
    k.kind = .number ∨ k.kind = .malformed .numeric := by
  rw [cutNumber] at h
  split at h
  · cases h
    exact .inr rfl
  · cases hv : numeralValue (cs.takeWhile isNumeral) with
    | error f =>
      rw [hv] at h
      cases h
    | ok v =>
      rw [hv] at h
      cases h
      exact .inl rfl

theorem cutName_kind_ne_done (base : Nat) (cs : List Char) : (cutName base cs).kind ≠ .done := by
  rw [cutName]
  split
  · split <;> simp
  · simp
  · simp

theorem cutOperatorName_kind (cs more : List Char) :
    (∃ f, (cutOperatorName cs more).kind = .builtin f) ∨ (cutOperatorName cs more).kind =
    .malformed .unknown := by
  rw [cutOperatorName]
  split
  · exact .inr rfl
  · dsimp only
    split
    · exact .inl ⟨_, rfl⟩
    · exact .inr rfl

theorem keyword?_kind {entry : String × Kind} (h : keyword? cs = some entry) :
    entry.2 ≠ .name ∧ entry.2 ≠ .done := by
  have hall : ∀ entry ∈ keywords, entry.2 ≠ .name ∧ entry.2 ≠ .done := by decide +kernel
  exact hall entry (List.mem_of_find?_eq_some h)

theorem single?_kind (c : Char) :
    (single? c).getD (.malformed .unknown) ≠ .name ∧ (single? c).getD
    (.malformed .unknown) ≠ .done := by
  unfold single?
  split <;> simp

theorem cutWord_kind_ne_done (cs body : List Char) : (cutWord cs body).kind ≠ .done := by
  rcases cutWord_cases (rfl : body.takeWhile Char.isAlpha = _) with ⟨r, hrel⟩ | ⟨more, hw,
    hd⟩ | hplain
  · rw [cutWord_of_relation rfl hrel]
    simp
  · rw [cutWord_of_operator rfl hw hd]
    rcases cutOperatorName_kind cs more with ⟨f, hf⟩ | hf <;> simp [hf]
  · rw [hplain.cutWord_eq]
    split
    · simp
    · split
      · simp
      · exact cutName_kind_ne_done _ cs

theorem cutCommand_kind_ne_done (cs body : List Char) : (cutCommand cs body).kind ≠ .done := by
  rw [cutCommand]
  cases hk : keyword? body with
  | some entry => exact (keyword?_kind hk).2
  | none => exact cutWord_kind_ne_done cs body

theorem cut_kind_ne_done (h : cut c more = .ok k) : k.kind ≠ .done := by
  rw [cut] at h
  split at h
  · rcases cutNumber_kind h with hnumber | hnumber <;> simp [hnumber]
  · split at h
    · cases h
      exact cutName_kind_ne_done 1 _
    · split at h
      · cases h
        exact cutCommand_kind_ne_done _ more
      · cases h
        exact (single?_kind c).2

theorem Scans.kind_ne_done (h : Scans pos cs ts pos' rest) : ∀ t ∈ ts, t.kind ≠ .done := by
  intro t ht
  obtain ⟨c, more, k, p, hk, rfl⟩ := h.exists_cut ht
  exact cut_kind_ne_done hk

theorem Scans.tokenize_eq (h : Scans 0 source.toList ts pos rest)
    (hwell : ∀ t ∈ ts, t.malformed? = none)
    (hend : rest.drop (gap rest) = []) :
    tokenize source = .ok (ts ++ [endToken (pos + gap rest)]) := by
  obtain ⟨fuel, -, heq⟩ := h.scanFrom_eq (scans_length source)
  rw [scanFrom_end hend] at heq
  rw [tokenize, scan, heq]
  dsimp only
  rw [findSome?_lexicalError?_append_end, findSome?_lexicalError?_eq_none_iff.mpr hwell]

theorem tokenize_eq_ok (h : tokenize source = .ok tokens) :
    ∃ ts pos pos' rest, Scans 0 source.toList ts pos rest ∧ (∀ t ∈ ts, t.malformed? = none) ∧
      tokens = ts ++ [endToken pos'] := by
  obtain ⟨ts, pos, rest, hs, hend⟩ := tokenize_cases source
  rcases hend with ⟨e, -, heq⟩ | ⟨hwell, ⟨-, heq⟩ | ⟨c, more, f, -, -, heq⟩⟩
  · rw [heq] at h
    cases h
  · rw [heq] at h
    cases h
    exact ⟨ts, pos, _, rest, hs, hwell, rfl⟩
  · rw [heq] at h
    cases h

theorem Same.malformed?_eq (h : Same t t') : t'.malformed? = t.malformed? := by
  rw [malformed?, malformed?, h.kind]

theorem malformed?_of_same (h : List.Forall₂ Same ts ts') (hwell : ∀ t ∈ ts, t.malformed? = none) :
    ∀ t ∈ ts', t.malformed? = none := by
  induction h with
  | nil => exact fun _ h => by cases h
  | @cons t t' ts ts' hsame _ ih =>
    intro u hu
    rcases List.mem_cons.mp hu with rfl | hu
    · rw [hsame.malformed?_eq]
      exact hwell t List.mem_cons_self
    · exact ih (fun u hu => hwell u (List.mem_cons_of_mem t hu)) u hu

theorem filter_append_end (h : ∀ t ∈ ts, t.kind ≠ .done) :
    (ts ++ [endToken pos]).filter (·.kind ≠ .done) = ts := by
  rw [List.filter_append, List.filter_eq_self.mpr fun t ht => decide_eq_true (h t ht)]
  exact List.append_nil ts

theorem tokenize_respaces (h : tokenize source = .ok tokens)
    (hs : Respaces (tokens.filter (·.kind ≠ .done)) source') :
    ∃ tokens', tokenize source' = .ok tokens' ∧ List.Forall₂ Same tokens tokens' := by
  obtain ⟨ts, pos, pos', rest, hscans, hwell, rfl⟩ := tokenize_eq_ok h
  rw [filter_append_end hscans.kind_ne_done] at hs
  obtain ⟨lead, cs, hlead, hspaced, hsource⟩ := hs
  obtain ⟨ts', q, rest', hscans', hsame, hgap⟩ := hscans.respace hwell hspaced hlead 0
  rw [← hsource] at hscans'
  have hwell' := malformed?_of_same hsame hwell
  have hend : rest'.drop (gap rest') = [] := by
    rw [hgap.gap_eq]
    exact List.drop_length
  exact ⟨_, hscans'.tokenize_eq hwell' hend,
    List.rel_append hsame (.cons ⟨rfl, rfl, rfl, rfl, rfl⟩ .nil)⟩

theorem spaced_intercalate (ts : List Token) :
    Spaced ts (" ".toList.intercalate (ts.map (·.text.toList))) := by
  have hblank : IsGap " ".toList := .blank (by decide) .nil
  induction ts with
  | nil => exact .nil
  | cons t ts ih =>
    cases ts with
    | nil =>
      have hlast : Spaced [t] (t.text.toList ++ ([] ++ [])) :=
        .cons .nil (fun h => absurd rfl h) .nil
      simpa using hlast
    | cons u ts =>
      rw [List.map_cons, List.map_cons, List.intercalate_cons_cons, List.append_assoc]
      exact .cons hblank (fun _ => by decide) ih

theorem respaces_render (tokens : List Token) :
    Respaces (tokens.filter (·.kind ≠ .done)) (render tokens) := by
  refine ⟨[], _, .nil, spaced_intercalate _, ?_⟩
  rw [render, String.toList_intercalate, List.map_map]
  rfl

end UnitSheet.Token
