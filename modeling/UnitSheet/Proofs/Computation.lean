import Mathlib.Data.List.Induction
import UnitSheet.Evaluation

namespace UnitSheet.Computation

variable {ε σ α β : Type} {m : ExceptT ε (StateM σ) α} {f : α → ExceptT ε (StateM σ) β}
variable {s t u : σ} {a : α} {b : β} {e : ε}

theorem bind_ok (h : m s = (.ok a, t)) : (m >>= f) s = f a t := by
  change (match m s with | (r, t) => ExceptT.bindCont f r t) = f a t
  rw [h]
  rfl

theorem bind_error (h : m s = (.error e, t)) : (m >>= f) s = (.error e, t) := by
  change (match m s with | (r, t) => ExceptT.bindCont f r t) = (.error e, t)
  rw [h]
  rfl

theorem run_of_isOk (h : (m s).1.isOk = true) : ∃ a, m s = (.ok a, (m s).2) := by
  rcases hm : m s with ⟨e | a, t⟩
  · rw [hm] at h
    cases h
  · exact ⟨a, rfl⟩

theorem get_bind {f : σ → ExceptT ε (StateM σ) β} :
    ((get : ExceptT ε (StateM σ) σ) >>= f) s = f s s :=
  rfl

theorem bind_eq_ok_iff :
    (m >>= f) s = (.ok b, u) ↔ ∃ a t, m s = (.ok a, t) ∧ f a t = (.ok b, u) := by
  constructor
  · intro h
    rcases hm : m s with ⟨r, t⟩
    cases r with
    | ok a => exact ⟨a, t, rfl, (bind_ok hm).symm.trans h⟩
    | error e =>
      rw [bind_error hm] at h
      cases h
  · intro ⟨a, t, hm, hf⟩
    rw [bind_ok hm, hf]

theorem bind_eq_error_iff : (m >>= f) s = (.error e, u) ↔
    m s = (.error e, u) ∨ ∃ a t, m s = (.ok a, t) ∧ f a t = (.error e, u) := by
  rcases hm : m s with ⟨r, t⟩
  cases r with
  | ok a =>
    rw [bind_ok hm]
    constructor
    · exact fun h => .inr ⟨a, t, rfl, h⟩
    · rintro (h | ⟨a', t', h, hf⟩)
      · cases h
      · cases h
        exact hf
  | error e' =>
    rw [bind_error hm]
    constructor
    · intro h
      cases h
      exact .inl rfl
    · rintro (h | ⟨a', t', h, -⟩)
      · cases h
        rfl
      · cases h

theorem bind_invariant {I : σ → Prop} (hm : I (m s).2)
    (hf : ∀ a t, m s = (.ok a, t) → I t → I (f a t).2) : I ((m >>= f) s).2 := by
  rcases h : m s with ⟨r, t⟩
  rw [h] at hm
  cases r with
  | ok a =>
    rw [bind_ok h]
    exact hf a t h hm
  | error e =>
    rw [bind_error h]
    exact hm

theorem mapM_snoc {as : List α} {bs : List β} (h : as.mapM f s = (.ok bs, t))
    (ha : f a t = (.ok b, u)) : (as ++ [a]).mapM f s = (.ok (bs ++ [b]), u) := by
  rw [List.mapM_append, bind_ok h, List.mapM_cons, List.mapM_nil]
  have hsingle : (f a >>= fun b => pure [] >>= fun bs => pure (b :: bs)) t = (.ok [b], u) := by
    rw [bind_ok ha]
    rfl
  rw [bind_ok hsingle]
  rfl

/-- What every member keeps that is come to, the whole list keeps. -/
theorem mapM_invariant {I : σ → Prop} {as : List α} (hs : I s)
    (hf : ∀ before a bs t, before ++ [a] <+: as → before.mapM f s = (.ok bs, t) → I t →
    I (f a t).2) : I (as.mapM f s).2 := by
  suffices h : ∀ rest before bs t, as = before ++ rest → before.mapM f s = (.ok bs, t) → I t →
      I (rest.mapM f t).2 from h as [] [] s rfl rfl hs
  intro rest
  induction rest with
  | nil => exact fun _ _ _ _ _ ht => ht
  | cons a rest ih =>
    intro before bs t has hbefore ht
    rw [List.mapM_cons]
    apply bind_invariant (hf before a bs t ⟨rest, by simp [has]⟩ hbefore ht)
    intro b u ha hu
    refine bind_invariant ?_ fun _ _ _ hv => hv
    exact ih (before ++ [a]) (bs ++ [b]) u (by simp [has]) (mapM_snoc hbefore ha) hu

theorem mapM_ok_of_mem {as : List α} {bs : List β} (h : as.mapM f s = (.ok bs, t)) (ha : a ∈ as) :
    ∃ u b v, f a u = (.ok b, v) ∧ ∃ (rest : List α) (cs : List β), rest.mapM f v = (.ok cs, t) := by
  induction as generalizing s bs with
  | nil => cases ha
  | cons c as ih =>
    rw [List.mapM_cons] at h
    obtain ⟨b, v, hc, h⟩ := bind_eq_ok_iff.mp h
    obtain ⟨cs, w, hrest, h⟩ := bind_eq_ok_iff.mp h
    cases h
    rcases List.mem_cons.mp ha with rfl | ha
    · exact ⟨s, b, v, hc, as, cs, hrest⟩
    · exact ih hrest ha

theorem mapM_eq_error_iff {as : List α} : as.mapM f s = (.error e, u) ↔
    ∃ before a bs t, before ++ [a] <+: as ∧ before.mapM f s = (.ok bs, t) ∧
      f a t = (.error e, u) := by
  induction as generalizing s with
  | nil =>
    constructor
    · intro h
      cases h
    · rintro ⟨before, a, bs, t, h, -⟩
      simp at h
  | cons a rest ih =>
    rw [List.mapM_cons, bind_eq_error_iff]
    constructor
    · rintro (h | ⟨b, t, ha, h⟩)
      · exact ⟨[], a, [], s, ⟨rest, rfl⟩, rfl, h⟩
      · rcases bind_eq_error_iff.mp h with h | ⟨bs, v, -, h⟩
        · obtain ⟨before, c, bs, v, hprefix, hbefore, hc⟩ := ih.mp h
          refine ⟨a :: before, c, b :: bs, v, (List.prefix_cons_inj a).mpr hprefix, ?_, hc⟩
          rw [List.mapM_cons, bind_ok ha, bind_ok hbefore]
          rfl
        · cases h
    · intro ⟨before, c, bs, t, hprefix, hbefore, hc⟩
      cases before with
      | nil =>
        obtain ⟨rfl, -⟩ := List.cons_prefix_cons.mp hprefix
        cases hbefore
        exact .inl hc
      | cons a' before =>
        obtain ⟨rfl, hrest⟩ := List.cons_prefix_cons.mp hprefix
        rw [List.mapM_cons] at hbefore
        obtain ⟨b, v, ha, hbefore⟩ := bind_eq_ok_iff.mp hbefore
        obtain ⟨bs', w, hbefore, hw⟩ := bind_eq_ok_iff.mp hbefore
        cases hw
        have hstop := ih.mpr ⟨before, c, bs', t, hrest, hbefore, hc⟩
        exact .inr ⟨b, v, ha, bind_error hstop⟩

section
variable {g : β → α → ExceptT ε (StateM σ) β} {as : List α} {b' : β}

theorem foldlM_snoc (h : as.foldlM g b s = (.ok b', t)) :
    (as ++ [a]).foldlM g b s = g b' a t := by
  rw [List.foldlM_append, bind_ok h]
  simp only [List.foldlM_cons, List.foldlM_nil, bind_pure]

/-- What holds of the start, and what every step keeps that is come to, holds wherever a fold
ends. -/
theorem foldlM_invariant {I : σ → Prop} (hs : I s)
    (hg : ∀ before a b' t, before ++ [a] <+: as → before.foldlM g b s = (.ok b', t) → I t →
      I (g b' a t).2) : I (as.foldlM g b s).2 := by
  suffices h : ∀ rest before b' t, as = before ++ rest → before.foldlM g b s = (.ok b', t) → I t →
      I (rest.foldlM g b' t).2 from h as [] b s rfl rfl hs
  intro rest
  induction rest with
  | nil => exact fun _ _ _ _ _ ht => ht
  | cons a rest ih =>
    intro before b' t has hbefore ht
    rw [List.foldlM_cons]
    apply bind_invariant (hg before a b' t ⟨rest, by simp [has]⟩ hbefore ht)
    intro c u hc hu
    exact ih (before ++ [a]) c u (by simp [has]) ((foldlM_snoc hbefore).trans hc) hu

theorem foldlM_ok_invariant {I : β → σ → Prop} (h : as.foldlM g b s = (.ok b', t)) (hs : I b s)
    (hg : ∀ before a c u c' u', before ++ [a] <+: as → before.foldlM g b s = (.ok c, u) → I c u →
      g c a u = (.ok c', u') → I c' u') : I b' t := by
  induction as using List.reverseRecOn generalizing b' t with
  | nil =>
    cases h
    exact hs
  | append_singleton as a ih =>
    rw [List.foldlM_append] at h
    obtain ⟨c, u, hc, h⟩ := bind_eq_ok_iff.mp h
    have hI : I c u := ih hc fun before a' c u c' u' hp =>
      hg before a' c u c' u' (hp.trans (List.prefix_append _ _))
    refine hg as a c u b' t (List.prefix_refl _) hc hI ?_
    rw [← foldlM_snoc hc, List.foldlM_append, bind_ok hc, h]

theorem foldlM_eq_error_iff : as.foldlM g b s = (.error e, u) ↔
    ∃ before a b' t, before ++ [a] <+: as ∧ before.foldlM g b s = (.ok b', t) ∧
      g b' a t = (.error e, u) := by
  induction as using List.reverseRecOn generalizing u with
  | nil =>
    constructor
    · intro h
      cases h
    · rintro ⟨before, a, b', t, h, -⟩
      simp at h
  | append_singleton as a ih =>
    rw [List.foldlM_append, bind_eq_error_iff, ih]
    constructor
    · rintro (⟨before, a', b', t, hp, hbefore, ha'⟩ | ⟨b', t, hbefore, ha⟩)
      · exact ⟨before, a', b', t, hp.trans (List.prefix_append _ _), hbefore, ha'⟩
      · refine ⟨as, a, b', t, List.prefix_refl _, hbefore, ?_⟩
        rw [← foldlM_snoc hbefore, List.foldlM_append, bind_ok hbefore, ha]
    · intro ⟨before, a', b', t, hp, hbefore, ha'⟩
      rcases List.prefix_concat_iff.mp hp with heq | hp
      · obtain ⟨rfl, rfl⟩ : before = as ∧ a' = a := by simpa using heq
        refine .inr ⟨b', t, hbefore, ?_⟩
        rw [List.foldlM_cons, bind_error ha']
      · exact .inl ⟨before, a', b', t, hp, hbefore, ha'⟩

end

end UnitSheet.Computation
