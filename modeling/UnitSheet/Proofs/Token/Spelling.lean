import UnitSheet.Proofs.Token.Respacing
import UnitSheet.Token.Name

namespace UnitSheet

namespace Name

inductive Subscript
  | bare (c : Char) (isAlphanum : c.isAlphanum = true)
  | braced (content : List Char) (ne_nil : content ≠ []) (closing_notMem : '}' ∉ content)
deriving DecidableEq

namespace Subscript

def content : Subscript → List Char
  | bare c _ => [c]
  | braced cs _ _ => cs

def chars : Subscript → List Char
  | bare c _ => ['_', c]
  | braced cs _ _ => '_' :: '{' :: (cs ++ ['}'])

theorem chars_injective {u v : Subscript} (h : u.chars = v.chars) : u = v := by
  have hbrace {c : Char} (hc : c.isAlphanum = true) : c ≠ '{' := by
    rintro rfl
    cases hc
  cases u with
  | bare c hc =>
    cases v with
    | bare d hd => simpa [chars] using h
    | braced ds _ _ => exact absurd (List.cons.inj (List.cons.inj h).2).1 (hbrace hc)
  | braced cs _ _ =>
    cases v with
    | bare d hd => exact absurd (List.cons.inj (List.cons.inj h).2).1.symm (hbrace hd)
    | braced ds _ _ => simpa [chars] using h

end Subscript

/-- A name in writing. -/
structure Spelling where
  backslash : Bool
  letters : List Char
  subscript : Option Subscript
  letters_ne_nil : letters ≠ []
  isAlpha : ∀ c ∈ letters, c.isAlpha = true
deriving DecidableEq

/-- The subscript in the name of a variable; a single character has no braces. -/
def mark : Option (List Char) → List Char
  | none => []
  | some [c] => ['_', c]
  | some cs => '_' :: '{' :: (cs ++ ['}'])

/-- The subscript is read back from the name of a variable. -/
def content? : List Char → Option (List Char)
  | [] => none
  | ['_', c] => some [c]
  | cs => some (cs.drop 2).dropLast

def unbraced : List Char → List Char
  | ['_', '{', c, '}'] => ['_', c]
  | cs => cs

variable {letters rest : List Char} {u v : Option (List Char)}

theorem mark_head (u : Option (List Char)) : ∀ c ∈ (mark u).head?, c = '_' := by
  fun_cases mark u <;> simp

theorem unbraced_of_length_ne {cs : List Char} (h : cs.length ≠ 4) : unbraced cs = cs := by
  rw [unbraced]
  rintro c rfl
  exact h rfl

theorem unbraced_braced (cs : List Char) :
    unbraced ('_' :: '{' :: (cs ++ ['}'])) = mark (some cs) := by
  match cs with
  | [] => rfl
  | [c] => rfl
  | c :: d :: cs => exact unbraced_of_length_ne (by simp)

theorem unbraced_mark (u : Option (List Char)) : unbraced (mark u) = mark u := by
  match u with
  | none => rfl
  | some [] => rfl
  | some [c] => exact unbraced_of_length_ne (by simp [mark])
  | some (c :: d :: cs) => exact unbraced_braced (c :: d :: cs)

theorem unbraced_chars (s : Subscript) : unbraced s.chars = mark (some s.content) := by
  cases s with
  | bare c _ => exact unbraced_mark (some [c])
  | braced cs _ _ => exact unbraced_braced cs

theorem content?_mark (u : Option (List Char)) : content? (mark u) = u := by
  match u with
  | none => rfl
  | some [] => rfl
  | some [c] => rfl
  | some (c :: d :: cs) =>
    have hcontent : ((c :: d :: cs) ++ ['}']).dropLast = c :: d :: cs := List.dropLast_concat
    exact congrArg some hcontent

theorem mark_injective (h : mark u = mark v) : u = v := by
  rw [← content?_mark u, ← content?_mark v, h]

theorem span_letters (hletters : ∀ c ∈ letters, c.isAlpha = true)
    (hrest : ∀ c ∈ rest.head?, c = '_') :
    (letters ++ rest).takeWhile (· ≠ '_') = letters ∧ (letters ++ rest).dropWhile
    (· ≠ '_') = rest := by
  have hne : ∀ c ∈ letters, decide (c ≠ '_') = true := by
    intro c hc
    apply decide_eq_true
    rintro rfl
    exact absurd (hletters '_' hc) (by decide)
  have hstop : rest.takeWhile (· ≠ '_') = [] ∧ rest.dropWhile (· ≠ '_') = rest := by
    cases rest with
    | nil => exact ⟨rfl, rfl⟩
    | cons c rest =>
      obtain rfl : c = '_' := hrest c rfl
      exact ⟨rfl, rfl⟩
  rw [List.takeWhile_append_of_pos hne, List.dropWhile_append_of_pos hne, hstop.1, hstop.2,
    List.append_nil]
  exact ⟨rfl, rfl⟩

theorem withoutBackslash_letters (hne : letters ≠ []) (hletters : ∀ c ∈ letters, c.isAlpha = true) :
    withoutBackslash (letters ++ rest) = letters ++ rest := by
  obtain ⟨c, cs, rfl⟩ := List.exists_cons_of_ne_nil hne
  rw [List.cons_append, withoutBackslash]
  rintro _ ⟨⟩
  exact absurd (hletters '\\' List.mem_cons_self) (by decide)

theorem ofChars_of_withoutBackslash {cs : List Char} (hbare : withoutBackslash cs = letters ++ rest)
    (hletters : ∀ c ∈ letters, c.isAlpha = true) (hrest : ∀ c ∈ rest.head?, c = '_') :
    ofChars cs = letters ++ unbraced rest := by
  obtain ⟨htake, hdrop⟩ := span_letters hletters hrest
  rw [ofChars, hbare, htake, hdrop]
  fun_cases unbraced rest with
  | case1 => rfl
  | case2 _ h =>
    split
    · next c => exact absurd rfl (h c)
    · rfl

namespace Spelling

variable (s : Spelling)

def subscriptChars : List Char := (s.subscript.map Subscript.chars).getD []

def chars : List Char := (if s.backslash then ['\\'] else []) ++ (s.letters ++ s.subscriptChars)

def text : String := String.ofList s.chars

def content : Option (List Char) := s.subscript.map Subscript.content

def variableChars : List Char := s.letters ++ mark s.content

theorem subscriptChars_head : ∀ c ∈ s.subscriptChars.head?, c = '_' := by
  rw [subscriptChars]
  match s.subscript with
  | none => nofun
  | some (.bare c _) => simp [Subscript.chars]
  | some (.braced cs _ _) => simp [Subscript.chars]

theorem unbraced_subscriptChars : unbraced s.subscriptChars = mark s.content := by
  rw [subscriptChars, content]
  cases s.subscript with
  | none => rfl
  | some u => exact unbraced_chars u

theorem withoutBackslash_chars : withoutBackslash s.chars = s.letters ++ s.subscriptChars := by
  have hbare : withoutBackslash (s.letters ++ s.subscriptChars) = s.letters ++ s.subscriptChars :=
    withoutBackslash_letters s.letters_ne_nil s.isAlpha
  rw [chars]
  cases s.backslash with
  | true => rfl
  | false => exact hbare

theorem ofChars_chars : ofChars s.chars = s.variableChars := by
  rw [ofChars_of_withoutBackslash s.withoutBackslash_chars s.isAlpha s.subscriptChars_head,
    unbraced_subscriptChars, variableChars]

theorem ofChars_variableChars : ofChars s.variableChars = s.variableChars := by
  have hbare : withoutBackslash (s.letters ++ mark s.content) = s.letters ++ mark s.content :=
    withoutBackslash_letters s.letters_ne_nil s.isAlpha
  rw [variableChars, ofChars_of_withoutBackslash hbare s.isAlpha (mark_head _), unbraced_mark]

variable {s} {s' : Spelling}

theorem variableChars_eq_iff :
    s.variableChars = s'.variableChars ↔ s.letters = s'.letters ∧ s.content = s'.content := by
  constructor
  · intro h
    obtain ⟨htake, hdrop⟩ := span_letters s.isAlpha (mark_head s.content)
    obtain ⟨htake', hdrop'⟩ := span_letters s'.isAlpha (mark_head s'.content)
    rw [variableChars, variableChars] at h
    rw [h] at htake hdrop
    exact ⟨htake.symm.trans htake', mark_injective (hdrop.symm.trans hdrop')⟩
  · rintro ⟨hletters, hcontent⟩
    rw [variableChars, variableChars, hletters, hcontent]

theorem subscriptChars_injective (h : s.subscriptChars = s'.subscriptChars) :
    s.subscript = s'.subscript := by
  have hne (u : Subscript) : u.chars ≠ [] := by
    cases u <;> exact List.cons_ne_nil _ _
  rw [subscriptChars, subscriptChars] at h
  cases hs : s.subscript with
  | none =>
    cases hs' : s'.subscript with
    | none => rfl
    | some v =>
      rw [hs, hs'] at h
      exact absurd h.symm (hne v)
  | some u =>
    cases hs' : s'.subscript with
    | none =>
      rw [hs, hs'] at h
      exact absurd h (hne u)
    | some v =>
      rw [hs, hs'] at h
      exact congrArg some (Subscript.chars_injective h)

theorem head_eq_backslash_iff : s.chars.head? = some '\\' ↔ s.backslash = true := by
  obtain ⟨c, cs, hletters⟩ := List.exists_cons_of_ne_nil s.letters_ne_nil
  have hc : c ≠ '\\' := by
    rintro rfl
    exact absurd (s.isAlpha '\\' (by rw [hletters]; exact List.mem_cons_self)) (by decide)
  rw [chars, hletters]
  cases s.backslash with
  | true => simp
  | false => simp [hc]

/-- A text is spelled in one way. -/
theorem chars_injective (h : s.chars = s'.chars) : s = s' := by
  have hbackslash : s.backslash = s'.backslash := by
    rw [Bool.eq_iff_iff, ← head_eq_backslash_iff, ← head_eq_backslash_iff, h]
  have hbare : s.letters ++ s.subscriptChars = s'.letters ++ s'.subscriptChars := by
    rw [← withoutBackslash_chars, ← withoutBackslash_chars, h]
  obtain ⟨htake, hdrop⟩ := span_letters s.isAlpha s.subscriptChars_head
  obtain ⟨htake', hdrop'⟩ := span_letters s'.isAlpha s'.subscriptChars_head
  rw [hbare] at htake hdrop
  have hletters := htake.symm.trans htake'
  have hsubscript := subscriptChars_injective (hdrop.symm.trans hdrop')
  cases s
  cases s'
  cases hbackslash
  cases hletters
  cases hsubscript
  rfl

theorem text_inj : s.text = s'.text ↔ s = s' :=
  ⟨fun h => chars_injective (String.ofList_injective h), congrArg text⟩

theorem ofText_text (s : Spelling) : ofText s.text = String.ofList s.variableChars := by
  rw [ofText, text, String.toList_ofList, ofChars_chars]

theorem ofText_eq_iff :
    ofText s.text = ofText s'.text ↔ s.letters = s'.letters ∧ s.content = s'.content := by
  rw [ofText_text, ofText_text, String.ofList_inj, variableChars_eq_iff]

theorem ofText_ofText (s : Spelling) : ofText (ofText s.text) = ofText s.text := by
  rw [ofText_text, ofText, String.toList_ofList, ofChars_variableChars]

end Spelling

end Name

namespace Token

open Name (Spelling Subscript)

variable {cs more : List Char} {c : Char} {k : Cut} {t t' : Token} {n : Nat}

theorem idxOf?_split (h : more.idxOf? c = some n) :
    ∃ front back, more = front ++ c :: back ∧ front.length = n ∧ c ∉ front := by
  obtain ⟨hlt, hc, hbefore⟩ := List.idxOf?_eq_some_iff.mp h
  refine ⟨more.take n, more.drop (n + 1), ?_, List.length_take_of_le (Nat.le_of_lt hlt), ?_⟩
  · rw [← hc, List.getElem_cons_drop, List.take_append_drop]
  · intro hmem
    obtain ⟨j, hj, hget⟩ := List.mem_take_iff_getElem.mp hmem
    exact hbefore j (Nat.lt_of_lt_of_le hj (Nat.min_le_left _ _)) hget

theorem cutName_spelled (front rest : List Char) (hk : cutName front.length (front ++ rest) = k)
    (hname : k.kind = .name) :
    ∃ u : Option Subscript,
      (front ++ rest).take k.length = front ++ (u.map Subscript.chars).getD [] := by
  have hfront : (front ++ rest).take front.length = front ++ [] := by
    rw [List.take_left, List.append_nil]
  rw [cutName, List.drop_left] at hk
  split at hk
  · next more =>
    split at hk
    · subst hk
      cases hname
    · subst hk
      cases hname
    · next n hn hidx =>
      -- The braces are closed behind at least one character.
      subst hk
      obtain ⟨content, back, rfl, rfl, hclosing⟩ := idxOf?_split hidx
      have hne : content ≠ [] := fun h => hn (List.length_eq_zero_iff.mpr h)
      refine ⟨some (.braced content hne hclosing), ?_⟩
      change (front ++ '_' :: '{' :: (content ++ '}' :: back)).take (front.length + content.length +
        3) = front ++ '_' :: '{' :: (content ++ ['}'])
      have htake : (content ++ '}' :: back).take (content.length + 1) = content ++ ['}'] :=
        List.take_length_add_append 1
      rw [Nat.add_assoc, List.take_length_add_append, List.take_succ_cons, List.take_succ_cons,
        htake]
  · next d more _ =>
    subst hk
    dsimp only
    split
    · next hd => exact ⟨some (.bare d hd), List.take_length_add_append 2⟩
    · exact ⟨none, hfront⟩
  · subst hk
    exact ⟨none, hfront⟩

theorem cutWord_spelled {body : List Char} (hk : cutWord ('\\' :: body) body = k)
    (hname : k.kind = .name) : ∃ s : Spelling, ('\\' :: body).take k.length = s.chars := by
  obtain ⟨letters, rest, rfl, hl⟩ : ∃ letters rest, body = letters ++ rest ∧
      body.takeWhile Char.isAlpha = letters :=
    ⟨_, _, List.takeWhile_append_dropWhile.symm, rfl⟩
  rcases cutWord_cases hl with ⟨r, hrel⟩ | ⟨more, hw, hd⟩ | hplain
  · rw [cutWord_of_relation hl hrel] at hk
    subst hk
    cases hname
  · rw [cutWord_of_operator hl hw hd] at hk
    subst hk
    rcases cutOperatorName_kind ('\\' :: (letters ++ rest)) more with ⟨f, hf⟩ | hf <;>
      rw [hf] at hname <;> cases hname
  · rw [hplain.cutWord_eq] at hk
    split at hk
    · subst hk
      cases hname
    · next hne =>
      split at hk
      · subst hk
        cases hname
      · obtain ⟨u, hu⟩ := cutName_spelled ('\\' :: letters) rest hk hname
        have hletters : ∀ c ∈ letters, c.isAlpha = true := by
          rw [← hl]
          exact List.all_eq_true.mp List.all_takeWhile
        exact ⟨⟨true, letters, u, fun h => hne (List.isEmpty_iff.mpr h), hletters⟩, hu⟩

theorem cut_spelled (hk : cut c more = .ok k) (hname : k.kind = .name) :
    ∃ s : Spelling, (c :: more).take k.length = s.chars := by
  rw [cut] at hk
  split at hk
  · rcases cutNumber_kind hk with hnumber | hnumber <;> rw [hnumber] at hname <;> cases hname
  · split at hk
    · next hc =>
      obtain ⟨u, hu⟩ := cutName_spelled [c] more (Except.ok.inj hk) hname
      exact ⟨⟨false, [c], u, List.cons_ne_nil c [], List.forall_mem_singleton.mpr hc⟩, hu⟩
    · split at hk
      · next hc =>
        subst hc
        rw [cutCommand] at hk
        cases hkey : keyword? more with
        | some entry =>
          rw [hkey] at hk
          cases hk
          exact absurd hname (keyword?_kind hkey).1
        | none =>
          rw [hkey] at hk
          exact cutWord_spelled (Except.ok.inj hk) hname
      · cases hk
        exact absurd hname (single?_kind c).1

theorem scan_spelled {source : String} (ht : t ∈ (scan source).tokens) (hname : t.kind = .name) :
    ∃ s : Spelling, s.text = t.text := by
  obtain ⟨ts, pos, rest, hs, hend⟩ := scanFrom_scans 0 source.toList (scans_length source)
  have hmem : t ∈ ts := by
    rw [scan] at ht
    rcases hend with ⟨-, heq⟩ | ⟨c, more, f, -, -, heq⟩
    · rw [heq] at ht
      rcases List.mem_append.mp ht with ht | ht
      · exact ht
      · rw [List.mem_singleton.mp ht] at hname
        cases hname
    · rw [heq] at ht
      exact ht
  obtain ⟨c, more, k, p, hk, rfl⟩ := hs.exists_cut hmem
  obtain ⟨s, hspelled⟩ := cut_spelled hk hname
  exact ⟨s, congrArg String.ofList hspelled.symm⟩

/-- The names in sources are spelled in one way each; two of them stand for the same variable
exactly if they have the same letters and the same subscript or none, and the name of a variable
stands for that variable. -/
theorem scan_names_agree {source source' : String} (ht : t ∈ (scan source).tokens)
    (hname : t.kind = .name) (ht' : t' ∈ (scan source').tokens) (hname' : t'.kind = .name) :
    ∃ s s' : Spelling, (∀ r : Spelling, r.text = t.text ↔ r = s) ∧
      (∀ r : Spelling, r.text = t'.text ↔ r = s') ∧
      (Name.ofText t.text = Name.ofText t'.text ↔ s.letters = s'.letters ∧ s.content = s'.content) ∧
      Name.ofText (Name.ofText t.text) = Name.ofText t.text := by
  obtain ⟨s, hs⟩ := scan_spelled ht hname
  obtain ⟨s', hs'⟩ := scan_spelled ht' hname'
  rw [← hs, ← hs']
  exact ⟨s, s', fun _ => Spelling.text_inj, fun _ => Spelling.text_inj, Spelling.ofText_eq_iff,
    s.ofText_ofText⟩

/-- Neither a backslash nor braces around one character make another variable. -/
theorem braced_names_agree :
    ∃ t ∈ (scan "x_\x7b1\x7d + y").tokens, ∃ t' ∈ (scan "\\x_1").tokens, t.kind = .name ∧
      t'.kind = .name ∧
      t.text = "x_\x7b1\x7d" ∧ t'.text = "\\x_1" ∧ Name.ofText t.text = Name.ofText t'.text := by
  have hbraced : ∃ t ∈ (scan "x_\x7b1\x7d + y").tokens, t.kind = .name ∧
      t.text = "x_\x7b1\x7d" := by
    decide +kernel
  have hbare : ∃ t ∈ (scan "\\x_1").tokens, t.kind = .name ∧ t.text = "\\x_1" := by decide +kernel
  obtain ⟨t, ht, hname, htext⟩ := hbraced
  obtain ⟨t', ht', hname', htext'⟩ := hbare
  obtain ⟨s, s', hs, hs', hagree, -⟩ := scan_names_agree ht hname ht' hname'
  have hletters : ∀ c ∈ ['x'], c.isAlpha = true := List.forall_mem_singleton.mpr rfl
  have hspelled :
      ⟨false, ['x'], some (.braced ['1'] (by decide) (by decide)), by decide, hletters⟩ = s :=
    (hs _).mp htext.symm
  have hspelled' : ⟨true, ['x'], some (.bare '1' rfl), by decide, hletters⟩ = s' :=
    (hs' _).mp htext'.symm
  subst hspelled hspelled'
  exact ⟨t, ht, t', ht', hname, hname', htext, htext', hagree.mpr ⟨rfl, rfl⟩⟩

end Token

end UnitSheet
