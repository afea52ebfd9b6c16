import Mathlib.Data.List.Basic
import Mathlib.Tactic.MkIffOfInductiveProp
import UnitSheet.Proofs.Token.Scan

namespace UnitSheet.Token

variable {cs more after sep : List Char} {c : Char} {k : Cut} {n base : Nat}

/-- Blanks and spacing commands. -/
inductive IsGap : List Char → Prop
  | nil : IsGap []
  | blank {c : Char} {cs : List Char} (hc : Text.isBlank c = true) (h : IsGap cs) : IsGap (c :: cs)
  | command {c : Char} {cs : List Char} (hc : isSpacing c = true)
      (h : IsGap cs) : IsGap ('\\' :: c :: cs)

/-- A token does not go on with the character, unless it is between the braces of a subscript or an
operator. -/
@[mk_iff] structure Parts (c : Char) : Prop where
  numeral : isNumeral c = false
  letter : c.isAlpha = false
  subscript : c ≠ '_'
  brace : c ≠ '{'
  keyword : ∀ entry ∈ keywords, c ∉ entry.1.toList

/-- A token may end before these characters. -/
def Parted (cs : List Char) : Prop := ∀ c ∈ cs.head?, Parts c

instance (c : Char) : Decidable (Parts c) := decidable_of_iff _ (parts_iff c).symm

theorem parts_backslash : Parts '\\' := by
  decide +kernel

def blankCodes : List Nat :=
  Text.blankRanges.flatMap fun (first, last) => List.range' first (last + 1 - first)

theorem mem_blankCodes (h : Text.isBlank c = true) : c.toNat ∈ blankCodes := by
  obtain ⟨⟨first, last⟩, hmem, hrange⟩ := List.any_eq_true.mp h
  simp only [Bool.and_eq_true, decide_eq_true_eq] at hrange
  apply List.mem_flatMap.mpr
  refine ⟨(first, last), hmem, ?_⟩
  rw [List.mem_range'_1]
  omega

theorem parts_blankCodes : ∀ n ∈ blankCodes, Parts (Char.ofNat n) := by
  decide +kernel

theorem parts_of_isBlank (h : Text.isBlank c = true) : Parts c := by
  have hparts := parts_blankCodes c.toNat (mem_blankCodes h)
  rwa [Char.ofNat_toNat] at hparts

theorem IsGap.parted (h : IsGap sep) (hne : sep ≠ []) : Parted (sep ++ cs) := by
  intro c hc
  cases h with
  | nil => exact absurd rfl hne
  | blank hblank =>
    cases hc
    exact parts_of_isBlank hblank
  | command =>
    cases hc
    exact parts_backslash

theorem gap_cons_of_ne (hc : c ≠ '\\') :
    gap (c :: cs) = if Text.isBlank c then gap cs + 1 else 0 := by
  rw [gap]
  intro d ds hd
  cases hd
  exact absurd rfl hc

theorem IsGap.gap_append (h : IsGap sep) (cs : List Char) :
    gap (sep ++ cs) = sep.length + gap cs := by
  induction h with
  | nil => rw [List.nil_append, List.length_nil, Nat.zero_add]
  | @blank c sep hc _ ih =>
    have hne : c ≠ '\\' := by
      rintro rfl
      exact absurd hc (by decide)
    rw [List.cons_append, gap_cons_of_ne hne, if_pos hc, ih, List.length_cons]
    omega
  | @command c sep hc _ ih =>
    rw [List.cons_append, List.cons_append, gap, if_pos hc, ih, List.length_cons, List.length_cons]
    omega

theorem IsGap.gap_eq (h : IsGap sep) : gap sep = sep.length := by
  have hgap := h.gap_append []
  rwa [List.append_nil] at hgap

/-- No gap is left behind the gap at the front. -/
theorem gap_drop_gap (cs : List Char) : gap (cs.drop (gap cs)) = 0 := by
  fun_induction gap cs with
  | case1 c cs hc ih => rwa [List.drop_succ_cons, List.drop_succ_cons]
  | case2 c cs hc =>
    rw [List.drop_zero, gap, if_neg hc]
  | case3 c cs _ hc ih => rwa [List.drop_succ_cons]
  | case4 c cs h hc =>
    rw [List.drop_zero, gap, if_neg hc]
    exact h
  | case5 => rfl

theorem takeWhile_take_append {p : Char → Bool} (hn : (cs.takeWhile p).length ≤ n)
    (ha : ∀ c ∈ after.head?, p c = false) : (cs.take n ++ after).takeWhile p = cs.takeWhile p := by
  have hafter : after.takeWhile p = [] := by
    cases after with
    | nil => rfl
    | cons a after => rw [List.takeWhile_cons, ha a rfl, if_neg Bool.false_ne_true]
  induction cs generalizing n with
  | nil => rw [List.take_nil, List.nil_append, hafter, List.takeWhile_nil]
  | cons c cs ih =>
    rw [List.takeWhile_cons] at hn ⊢
    cases n with
    | zero =>
      cases hc : p c with
      | true => simp [hc] at hn
      | false => rw [List.take_zero, List.nil_append, hafter, if_neg Bool.false_ne_true]
    | succ n =>
      rw [List.take_succ_cons, List.cons_append, List.takeWhile_cons]
      split
      · next hc =>
        rw [if_pos hc, List.length_cons] at hn
        rw [ih (Nat.le_of_succ_le_succ hn)]
      · rfl

theorem cutNumber_take_append (h : cutNumber cs = .ok k) (hn : k.length ≤ n) (ha : Parted after) :
    cutNumber (cs.take n ++ after) = .ok k := by
  have hlen : (cs.takeWhile isNumeral).length ≤ n := cutNumber_length h ▸ hn
  rw [cutNumber, takeWhile_take_append hlen fun c hc => (ha c hc).numeral]
  exact h

theorem idxOf?_take_append (h : cs.idxOf? c = some n) (after : List Char) :
    n < cs.length ∧ ∀ m, n < m → (cs.take m ++ after).idxOf? c = some n := by
  induction cs generalizing n with
  | nil => cases h
  | cons d cs ih =>
    rw [List.idxOf?_cons] at h
    split at h
    · next hd =>
      cases h
      refine ⟨Nat.succ_pos _, fun m hm => ?_⟩
      obtain ⟨m, rfl⟩ := Nat.exists_eq_add_one_of_ne_zero (Nat.ne_zero_of_lt hm)
      rw [List.take_succ_cons, List.cons_append, List.idxOf?_cons, if_pos hd]
    · next hd =>
      obtain ⟨j, hj, rfl⟩ := Option.map_eq_some_iff.mp h
      obtain ⟨hlt, hidx⟩ := ih hj
      refine ⟨Nat.succ_lt_succ hlt, fun m hm => ?_⟩
      obtain ⟨m, rfl⟩ := Nat.exists_eq_add_one_of_ne_zero (Nat.ne_zero_of_lt hm)
      rw [List.take_succ_cons, List.cons_append, List.idxOf?_cons, if_neg hd,
        hidx m (Nat.lt_of_succ_lt_succ hm)]
      rfl

theorem cutName_of_not_subscript (h : ∀ c ∈ (cs.drop base).head?, c ≠ '_') :
    cutName base cs = { kind := .name, length := base } := by
  rw [cutName]
  split
  · next hd => exact absurd rfl (h '_' (by rw [hd]; rfl))
  · next hd => exact absurd rfl (h '_' (by rw [hd]; rfl))
  · rfl

theorem cutName_of_subscript {d : Char} {front more : List Char} (hd : d.isAlphanum = true) :
    cutName front.length
      (front ++ '_' :: d :: more) = { kind := .name, length := front.length + 2 } := by
  rw [cutName, List.drop_left]
  split
  · next h =>
    cases h
    exact absurd hd (by decide)
  · next h =>
    cases h
    rw [if_pos hd]
  · next h => exact absurd rfl (h d more)

theorem Parts.alphanum (h : Parts c) : c.isAlphanum = false := by
  have hdigit : c.isDigit = false := by
    by_contra hc
    have hrange : 48 ≤ c.toNat ∧ c.toNat ≤ 57 := by
      simpa [Char.isDigit, UInt32.le_iff_toNat_le] using hc
    have hnumeral : isNumeral c = true := by
      simp [isNumeral, Text.isDigit, Text.decimalDigit?, Text.zeroDigits, hrange]
    rw [h.numeral] at hnumeral
    cases hnumeral
  rw [Char.isAlphanum, h.letter, hdigit]
  rfl

theorem cutName_of_mark {tail : List Char} (hd : cs.drop base = '_' :: tail)
    (h : ∀ d ∈ tail.head?, d ≠ '{' ∧ d.isAlphanum = false) :
    cutName base cs = { kind := .name, length := base } := by
  rw [cutName, hd]
  cases tail with
  | nil => rfl
  | cons d tail =>
    obtain ⟨hbrace, halphanum⟩ := h d rfl
    split
    · next heq =>
      cases heq
      exact absurd rfl hbrace
    · next heq =>
      cases heq
      rw [if_neg (by rw [halphanum]; exact Bool.false_ne_true)]
    · rfl

theorem cutName_bare_take_append (front rest : List Char) (ha : Parted after)
    (h : ∀ tail, rest = '_' :: tail → ∀ d ∈ tail.head?, d ≠ '{' ∧ d.isAlphanum = false) (j : Nat) :
    cutName front.length (front ++ rest.take j ++ after) =
      { kind := .name, length := front.length } := by
  have hafter : ∀ d ∈ after.head?, d ≠ '{' ∧ d.isAlphanum = false :=
    fun d hd => ⟨(ha d hd).brace, (ha d hd).alphanum⟩
  have hbare : ∀ d ∈ after.head?, d ≠ '_' := fun d hd => (ha d hd).subscript
  have hdrop : (front ++ rest.take j ++ after).drop front.length = rest.take j ++ after := by
    rw [List.append_assoc, List.drop_left]
  cases hrest : rest.take j with
  | nil =>
    apply cutName_of_not_subscript
    rwa [List.append_nil, List.drop_left]
  | cons c tail =>
    rw [hrest] at hdrop
    by_cases hc : c = '_'
    · subst hc
      apply cutName_of_mark hdrop
      intro d hd
      cases tail with
      | nil => exact hafter d hd
      | cons d' tail =>
        cases hd
        obtain ⟨more, hmore⟩ : ∃ more, rest = '_' :: d :: more :=
          ⟨_, (hrest ▸ List.take_append_drop j rest).symm⟩
        exact h _ hmore d rfl
    · apply cutName_of_not_subscript
      rw [hdrop]
      intro d hd
      cases hd
      exact hc

/-- A name is cut again from its text, with the subscript if it has one, and from any longer
beginning. -/
theorem cutName_take_append (front rest : List Char) (hk : cutName front.length (front ++ rest) = k)
    (hname : k.kind = .name) (ha : Parted after) :
    ∃ m, m ≤ rest.length ∧ k.length = front.length + m ∧
      ∀ j, m ≤ j → cutName front.length (front ++ rest.take j ++ after) = k := by
  rw [cutName, List.drop_left] at hk
  split at hk
  · next more =>
    split at hk
    · cases hk
      cases hname
    · cases hk
      cases hname
    · next n _ hidx =>
      subst hk
      obtain ⟨hlt, hidx⟩ := idxOf?_take_append hidx after
      refine ⟨n + 3, ?_, rfl, fun j hj => ?_⟩
      · rw [List.length_cons, List.length_cons]
        omega
      · obtain ⟨j, rfl⟩ := Nat.exists_eq_add_of_le' (Nat.le_trans (Nat.le_add_left 2 (n + 1)) hj)
        rw [cutName, List.append_assoc, List.drop_left]
        simp only [List.take_succ_cons, List.cons_append, hidx j (by omega)]
  · next d more hbrace =>
    subst hk
    split
    · next hd =>
      refine ⟨2, by simp, rfl, fun j hj => ?_⟩
      obtain ⟨j, rfl⟩ := Nat.exists_eq_add_of_le' hj
      rw [List.append_assoc]
      exact cutName_of_subscript hd
    · next hd =>
      refine ⟨0, Nat.zero_le _, rfl, fun j _ => cutName_bare_take_append front _ ha ?_ j⟩
      intro tail htail d' hd'
      cases htail
      cases hd'
      exact ⟨hbrace, Bool.eq_false_iff.mpr hd⟩
  · next hbrace hmark =>
    subst hk
    refine ⟨0, Nat.zero_le _, rfl, fun j _ => cutName_bare_take_append front _ ha ?_ j⟩
    intro tail htail d hd
    cases tail with
    | nil => cases hd
    | cons d' tail => exact (hmark d' tail htail).elim

theorem prefix_of_prefix_take_append {word : List Char} (h : word <+: cs.take n ++ after)
    (ha : ∀ c ∈ after.head?, c ∉ word) : word <+: cs := by
  rcases List.prefix_or_prefix_of_prefix h (List.prefix_append _ _) with htake | ⟨rest, rfl⟩
  · exact htake.trans (List.take_prefix n cs)
  · cases rest with
    | nil =>
      rw [List.append_nil]
      exact List.take_prefix n cs
    | cons c rest =>
      obtain ⟨more, rfl⟩ := (List.prefix_append_right_inj _).mp h
      exact absurd (List.mem_append_right _ List.mem_cons_self) (ha c rfl)

theorem keyword?_take_append (hn : ∀ entry ∈ keyword? cs, entry.1.length ≤ n) (ha : Parted after) :
    keyword? (cs.take n ++ after) = keyword? cs := by
  have hold : ∀ entry ∈ keywords, entry.1.toList.isPrefixOf (cs.take n ++ after) = true →
      entry.1.toList.isPrefixOf cs = true := by
    intro entry hmem h
    rw [List.isPrefixOf_iff_prefix] at h ⊢
    exact prefix_of_prefix_take_append h fun c hc => (ha c hc).keyword entry hmem
  cases hk : keyword? cs with
  | none =>
    rw [keyword?, List.find?_eq_none] at hk ⊢
    exact fun entry hmem h => hk entry hmem (hold entry hmem h)
  | some entry =>
    have hlen := hn entry hk
    rw [keyword?, List.find?_eq_some_iff_append] at hk ⊢
    obtain ⟨hp, front, back, hsplit, hbefore⟩ := hk
    refine ⟨?_, front, back, hsplit, fun other hmem => ?_⟩
    · rw [List.isPrefixOf_iff_prefix] at hp ⊢
      rw [← String.length_toList] at hlen
      exact (List.prefix_take_iff.mpr ⟨hp, hlen⟩).trans (List.prefix_append _ _)
    · have hnot := hbefore other hmem
      rw [Bool.not_eq_true'] at hnot ⊢
      have hmem : other ∈ keywords := hsplit ▸ List.mem_append_left _ hmem
      exact Bool.eq_false_iff.mpr fun h => Bool.eq_false_iff.mp hnot (hold other hmem h)

section
variable {letters rest body : List Char}

theorem cutOperatorName_take_append (h : more.idxOf? '}' = some n)
    (cs' after : List Char) {m : Nat} (hm : n < m) :
    cutOperatorName cs' (more.take m ++ after) = cutOperatorName cs more := by
  obtain ⟨hlt, hidx⟩ := idxOf?_take_append h after
  have htake : (more.take m ++ after).take n = more.take n := by
    rw [List.take_append_of_le_length (by rw [List.length_take]; omega), List.take_take]
    congr 1
    omega
  rw [cutOperatorName, cutOperatorName, h, hidx m hm]
  dsimp only
  rw [htake]

theorem cutWord_of_relation {r : Comparison} (hl : body.takeWhile Char.isAlpha = letters)
    (hrel : relations.lookup (String.ofList letters) = some r) :
    cutWord cs body = { kind := .operator (.comparison r), length := letters.length + 1 } := by
  rw [cutWord, hl, hrel]

theorem cutWord_of_operator (hl : body.takeWhile Char.isAlpha = letters)
    (hw : String.ofList letters = "operatorname") (hd : body.drop letters.length = '{' :: more) :
    cutWord cs body = cutOperatorName cs more := by
  have hrel : relations.lookup "operatorname" = none := by decide +kernel
  rw [cutWord, hl, hw, hrel, hd]
  rfl

/-- A word of letters that is no relation, and that no brace makes the name of an operator. -/
structure Plain (letters body : List Char) : Prop where
  letters_eq : body.takeWhile Char.isAlpha = letters
  relation : relations.lookup (String.ofList letters) = none
  operator : ∀ more, String.ofList letters = "operatorname" → body.drop letters.length ≠ '{' :: more

theorem Plain.cutWord_eq (h : Plain letters body) : cutWord cs body =
    if letters.isEmpty then { kind := .malformed .unknown, length := min 2 cs.length }
    else match Measure.ofWord? (String.ofList letters) with
      | some m =>
        { kind := .number, length := letters.length + 1, value := m.scale,
          dimension := m.dimension }
      | none => cutName (letters.length + 1) cs := by
  rw [cutWord, h.letters_eq, h.relation]
  dsimp only
  split
  · next hw hd => exact absurd hd (h.operator _ (by simpa using hw))
  · rfl

theorem cutWord_cases (hl : body.takeWhile Char.isAlpha = letters) :
    (∃ r, relations.lookup (String.ofList letters) = some r) ∨
      (∃ more, String.ofList letters = "operatorname" ∧ body.drop letters.length = '{' :: more) ∨
      Plain letters body := by
  cases hrel : relations.lookup (String.ofList letters) with
  | some r => exact .inl ⟨r, rfl⟩
  | none =>
    by_cases hop : ∃ more, String.ofList letters = "operatorname" ∧
      body.drop letters.length = '{' :: more
    · exact .inr (.inl hop)
    · exact .inr (.inr ⟨hl, hrel, fun more hw hd => hop ⟨more, hw, hd⟩⟩)

theorem letters_take_append (hl : (letters ++ rest).takeWhile Char.isAlpha = letters)
    (ha : Parted after)
    (n : Nat) : (letters ++ (rest.take n ++ after)).takeWhile Char.isAlpha = letters := by
  have hle : ((letters ++ rest).takeWhile Char.isAlpha).length ≤ letters.length + n := by
    rw [hl]
    exact Nat.le_add_right _ _
  have hrun := takeWhile_take_append hle fun c hc => (ha c hc).letter
  rwa [List.take_length_add_append, List.append_assoc, hl] at hrun

theorem Plain.take_append (h : Plain letters (letters ++ rest)) (ha : Parted after) (n : Nat) :
    Plain letters (letters ++ (rest.take n ++ after)) where
  letters_eq := letters_take_append h.letters_eq ha n
  relation := h.relation
  operator more hw hd := by
    rw [List.drop_left] at hd
    have hafter (hd : after = '{' :: more) : False := (ha '{' (by rw [hd]; rfl)).brace rfl
    cases rest with
    | nil => exact hafter (by rwa [List.take_nil] at hd)
    | cons d rest =>
      cases n with
      | zero => exact hafter hd
      | succ n =>
        rw [List.take_succ_cons, List.cons_append] at hd
        cases hd
        exact h.operator rest hw List.drop_left

theorem cutName_kind (h : ∀ m, (cutName base cs).kind ≠ .malformed m) :
    (cutName base cs).kind = .name := by
  rw [cutName] at h ⊢
  split at h
  · split at h
    · exact absurd rfl (h _)
    · exact absurd rfl (h _)
    · rfl
  · rfl
  · rfl

/-- A command is cut again from its text: its letters are, and what belongs to it behind them, and
maybe more. -/
def WordAgain (letters rest after : List Char) (k : Cut) : Prop :=
  letters ≠ [] ∧ ∃ n, n ≤ rest.length ∧ k.length = letters.length + n + 1 ∧ ∀ m, n ≤ m →
    cutWord ('\\' :: (letters ++ (rest.take m ++ after))) (letters ++ (rest.take m ++ after)) = k

theorem wordAgain_of_relation {r : Comparison}
    (hl : (letters ++ rest).takeWhile Char.isAlpha = letters)
    (hrel : relations.lookup (String.ofList letters) = some r) (ha : Parted after) :
    WordAgain letters rest after
      { kind := .operator (.comparison r), length := letters.length + 1 } := by
  refine ⟨?_, 0, Nat.zero_le _, rfl,
    fun m _ => cutWord_of_relation (letters_take_append hl ha m) hrel⟩
  rintro rfl
  have hnone : relations.lookup "" = none := by decide +kernel
  rw [String.ofList_nil, hnone] at hrel
  cases hrel

theorem wordAgain_of_operator (hl : (letters ++ '{' :: more).takeWhile Char.isAlpha = letters)
    (hw : String.ofList letters = "operatorname") (hk : cutOperatorName cs more = k)
    (hwell : ∀ m, k.kind ≠ .malformed m) (ha : Parted after) :
    WordAgain letters ('{' :: more) after k := by
  have hlen : letters.length = 12 := by
    rw [← String.length_ofList, hw]
    rfl
  cases hidx : more.idxOf? '}' with
  | none =>
    rw [cutOperatorName, hidx] at hk
    subst hk
    exact absurd rfl (hwell .unknown)
  | some j =>
    obtain ⟨hlt, -⟩ := idxOf?_take_append hidx []
    have hlength : k.length = 13 + j + 2 := by
      rw [← hk, cutOperatorName, hidx]
      rfl
    refine ⟨List.ne_nil_of_length_pos (by omega), j + 2, ?_, by omega, fun m hm => ?_⟩
    · rw [List.length_cons]
      omega
    · obtain ⟨m, rfl⟩ := Nat.exists_eq_add_one_of_ne_zero (Nat.ne_zero_of_lt hm)
      have hdrop : (letters ++ (('{' :: more).take (m + 1) ++ after)).drop letters.length =
          '{' :: (more.take m ++ after) := List.drop_left
      rw [cutWord_of_operator (letters_take_append hl ha (m + 1)) hw hdrop, ← hk]
      exact cutOperatorName_take_append hidx _ _ (Nat.lt_of_succ_lt_succ hm)

theorem Plain.wordAgain (h : Plain letters (letters ++ rest))
    (hk : cutWord ('\\' :: (letters ++ rest)) (letters ++ rest) = k)
    (hwell : ∀ m, k.kind ≠ .malformed m) (ha : Parted after) : WordAgain letters rest after k := by
  have hagain := h.take_append ha
  rw [h.cutWord_eq] at hk
  cases letters with
  | nil =>
    subst hk
    exact absurd rfl (hwell .unknown)
  | cons d letters =>
    refine ⟨List.cons_ne_nil d letters, ?_⟩
    rw [List.isEmpty_cons, if_neg Bool.false_ne_true] at hk
    cases hm : Measure.ofWord? (String.ofList (d :: letters)) with
    | some m =>
      rw [hm] at hk
      refine ⟨0, Nat.zero_le _, by rw [← hk], fun m _ => ?_⟩
      rw [(hagain m).cutWord_eq, List.isEmpty_cons, if_neg Bool.false_ne_true, hm]
      exact hk
    | none =>
      rw [hm] at hk
      have hkind : k.kind = .name := by
        subst hk
        exact cutName_kind hwell
      obtain ⟨n, hn, hlength, hname⟩ := cutName_take_append ('\\' :: d :: letters) rest hk hkind ha
      refine ⟨n, hn, ?_, fun m hmore => ?_⟩
      · rw [hlength, List.length_cons]
        omega
      · rw [(hagain m).cutWord_eq, List.isEmpty_cons, if_neg Bool.false_ne_true, hm]
        exact List.append_assoc .. ▸ hname m hmore

theorem cutWord_take_append (hl : (letters ++ rest).takeWhile Char.isAlpha = letters)
    (hk : cutWord ('\\' :: (letters ++ rest)) (letters ++ rest) = k)
    (hwell : ∀ m, k.kind ≠ .malformed m) (ha : Parted after) : WordAgain letters rest after k := by
  rcases cutWord_cases hl with ⟨r, hrel⟩ | ⟨more, hw, hd⟩ | hplain
  · rw [cutWord_of_relation hl hrel] at hk
    exact hk ▸ wordAgain_of_relation hl hrel ha
  · rw [cutWord_of_operator hl hw hd] at hk
    rw [List.drop_left] at hd
    subst hd
    exact wordAgain_of_operator hl hw hk hwell ha
  · exact hplain.wordAgain hk hwell ha

end

theorem keyword_length {entry : String × Kind} (h : keyword? cs = some entry) :
    0 < entry.1.length ∧ entry.1.length ≤ cs.length := by
  have hall : ∀ entry ∈ keywords, 0 < entry.1.length := by decide +kernel
  rw [keyword?] at h
  have hfound := List.find?_some h
  have hprefix : entry.1.toList <+: cs := List.isPrefixOf_iff_prefix.mp hfound
  rw [← String.length_toList]
  refine ⟨?_, hprefix.length_le⟩
  rw [String.length_toList]
  exact hall entry (List.mem_of_find?_eq_some h)

theorem cutCommand_take_append (hk : cutCommand ('\\' :: cs) cs = k)
    (hwell : ∀ m, k.kind ≠ .malformed m)
    (ha : Parted after) : ∃ n, 0 < n ∧ n ≤ cs.length ∧ k.length = n + 1 ∧ ∀ m, n ≤ m →
      cutCommand ('\\' :: (cs.take m ++ after)) (cs.take m ++ after) = k := by
  rw [cutCommand] at hk
  cases hkey : keyword? cs with
  | some entry =>
    obtain ⟨hpos, hle⟩ := keyword_length hkey
    rw [hkey] at hk
    refine ⟨entry.1.length, hpos, hle, by rw [← hk], fun m hm => ?_⟩
    have hagain : keyword? (cs.take m ++ after) = some entry := by
      rw [keyword?_take_append _ ha, hkey]
      intro entry' h
      rw [hkey] at h
      cases h
      exact hm
    rw [cutCommand, hagain]
    exact hk
  | none =>
    rw [hkey] at hk
    obtain ⟨letters, rest, rfl, hl⟩ : ∃ letters rest, cs = letters ++ rest ∧
        cs.takeWhile Char.isAlpha = letters :=
      ⟨_, _, List.takeWhile_append_dropWhile.symm, rfl⟩
    obtain ⟨hne, n, hn, hlength, hword⟩ := cutWord_take_append hl hk hwell ha
    refine ⟨letters.length + n, ?_, ?_, hlength, fun m hm => ?_⟩
    · exact Nat.add_pos_left (List.length_pos_iff.mpr hne) n
    · rw [List.length_append]
      omega
    · obtain ⟨j, rfl⟩ := Nat.exists_eq_add_of_le (Nat.le_trans (Nat.le_add_right _ n) hm)
      have htake : (letters ++ rest).take (letters.length + j) = letters ++ rest.take j :=
        List.take_length_add_append j
      have hagain : keyword? ((letters ++ rest).take (letters.length + j) ++ after) = none := by
        rw [keyword?_take_append _ ha, hkey]
        intro entry h
        rw [hkey] at h
        cases h
      rw [cutCommand, hagain, htake, List.append_assoc]
      exact hword j (Nat.le_of_add_le_add_left hm)

/-- A well-formed token is cut again from its text, whatever comes behind it that parts it, and from
its text with some of the characters behind it. -/
theorem cut_take_append (hk : cut c more = .ok k) (hwell : ∀ m, k.kind ≠ .malformed m)
    (ha : Parted after) : ∃ n, n ≤ more.length ∧ k.length = n + 1 ∧ (c = '\\' → 0 < n) ∧
      ∀ m, n ≤ m → cut c (more.take m ++ after) = .ok k := by
  rw [cut] at hk
  split at hk
  · next hc =>
    have hlength := cutNumber_length hk
    have hle := (List.takeWhile_prefix isNumeral (l := c :: more)).length_le
    obtain ⟨n, hn⟩ := Nat.exists_eq_add_one_of_ne_zero (n := k.length) (by
      rw [hlength, List.takeWhile_cons_of_pos hc]
      exact Nat.succ_ne_zero _)
    rw [List.length_cons] at hle
    refine ⟨n, by omega, hn, ?_, fun m hm => ?_⟩
    · rintro rfl
      exact absurd hc (by decide +kernel)
    · have hagain := cutNumber_take_append hk (by omega : k.length ≤ m + 1) ha
      rw [List.take_succ_cons, List.cons_append] at hagain
      rw [cut, if_pos hc, hagain]
  · next hnumeral =>
    split at hk
    · next hc =>
      cases hk
      have hname := cutName_kind hwell
      obtain ⟨n, hn, hlength, hagain⟩ := cutName_take_append [c] more rfl hname ha
      refine ⟨n, hn, hlength.trans (Nat.add_comm 1 n), ?_, fun m hm => ?_⟩
      · rintro rfl
        exact absurd hc (by decide)
      · rw [cut, if_neg hnumeral, if_pos hc]
        exact congrArg Except.ok (hagain m hm)
    · next hletter =>
      split at hk
      · next hc =>
        cases hk
        subst hc
        obtain ⟨n, hpos, hn, hlength, hagain⟩ := cutCommand_take_append rfl hwell ha
        refine ⟨n, hn, hlength, fun _ => hpos, fun m hm => ?_⟩
        rw [cut, if_neg hnumeral, if_neg hletter, if_pos rfl, hagain m hm]
      · next hc =>
        refine ⟨0, Nat.zero_le _, ?_, fun h => absurd h hc, fun m _ => ?_⟩
        · cases hk
          rfl
        · rw [cut, if_neg hnumeral, if_neg hletter, if_neg hc]
          exact hk

/-- The text of a token starts with no gap. -/
theorem gap_take_append (hgap : gap (c :: more) = 0) (hn : c = '\\' → 0 < n ∧ 0 < more.length) :
    gap (c :: (more.take n ++ after)) = 0 := by
  by_cases hc : c = '\\'
  · obtain ⟨hpos, hmore⟩ := hn hc
    subst hc
    cases more with
    | nil => exact absurd hmore (Nat.lt_irrefl 0)
    | cons d more =>
      cases n with
      | zero => exact absurd hpos (Nat.lt_irrefl 0)
      | succ n =>
        rw [List.take_succ_cons, List.cons_append, gap]
        rw [gap] at hgap
        split at hgap
        · cases hgap
        · next hd => exact if_neg hd
  · rw [gap_cons_of_ne hc] at hgap ⊢
    split at hgap
    · cases hgap
    · next hblank => exact if_neg hblank

end UnitSheet.Token
