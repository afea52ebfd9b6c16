import UnitSheet.Proofs.Settings.Entry

namespace UnitSheet.Settings

open Datum (Entry IsValue Refused Overlooked Inexpressible)

/-- A constant is built from a text or a number, with the unit of its entry. -/
inductive Builds (host : Host) : String × Datum → ConstantSource → Prop
  | mk {name : String} {d v : Datum} {source unit : String} (he : Entry d v unit) (hv : v.IsValue)
      (h : valueSource host v = .ok source) : Builds host (name, d) ⟨name, source, unit⟩

/-- An entry of which no expression is made is met where no entry before it is an error. -/
inductive Breaks (host : Host) : List (String × Datum) → Prop
  | here {name : String} {d : Datum} {rest : List (String × Datum)} (h : Inexpressible host d) :
      Breaks host ((name, d) :: rest)
  | later {name : String} {d : Datum} {rest : List (String × Datum)} (hd : ¬ Refused d)
      (h : Breaks host rest) : Breaks host ((name, d) :: rest)

variable {host : Host} {path : Option String} {constants : List (String × Datum)} {name : String}
variable {d v : Datum}

theorem constantOf_entry {u : String} (he : Entry d v u) (h : v.IsValue ∨ Overlooked d v) :
    constantOf host path name d =
      (fun source => ⟨name, source, u⟩) <$> valueSource host v := by
  cases he with
  | alone hd =>
    rcases h with h | h
    · cases h <;> rfl
    · cases h
      exact absurd rfl (hd _)
  | unitless hv hu =>
    simp only [constantOf, hv, hu]
    rfl
  | unit hv hu =>
    simp only [constantOf, hv, hu]
    rfl

theorem valueSource_cases {u : String} (he : Entry d v u) (h : v.IsValue ∨ Overlooked d v) :
    (∃ source, valueSource host v = .ok source) ∧ ¬ Inexpressible host d ∨
      (∃ f, valueSource host v = .error (.fault f)) ∧ Inexpressible host d := by
  by_cases htext : ∃ s, v = .text s
  · obtain ⟨s, rfl⟩ := htext
    refine .inl ⟨⟨s, rfl⟩, fun hbroken => ?_⟩
    cases hbroken with
    | unwritable he' _ htext => exact htext s (he.unique he').symm
    | exponent ho => exact ho.not_isValue he (.text s)
  · have hnot : ∀ s, v ≠ .text s := fun s hs => htext ⟨s, hs⟩
    have hsource : valueSource host v = (v.numberSource host).mapError .fault := by
      cases v with
      | text s => exact absurd rfl (hnot s)
      | _ => rfl
    have hiff : (∃ f, v.numberSource host = .error f) ↔ Inexpressible host d :=
      Datum.numberSource_error_iff he h hnot
    rw [hsource]
    cases hnumber : v.numberSource host with
    | error f =>
      rw [hnumber] at hiff
      exact .inr ⟨⟨f, rfl⟩, hiff.mp ⟨f, rfl⟩⟩
    | ok source =>
      rw [hnumber] at hiff
      exact .inl ⟨⟨source, rfl⟩, fun hbroken => nomatch (hiff.mpr hbroken).choose_spec⟩

theorem constantOf_refused (h : Refused d) :
    ∃ cause, constantOf host path name d = fail path cause := by
  cases h with
  | alone hd hvalue =>
    cases d with
    | null | boolean | array => exact ⟨_, rfl⟩
    | integer n => exact absurd (.integer n) hvalue
    | float x => exact absurd (.float x) hvalue
    | text s => exact absurd (.text s) hvalue
    | table fields => exact absurd rfl (hd fields)
  | value hv =>
    simp only [constantOf, hv]
    exact ⟨_, rfl⟩
  | @unit fields u hu htext =>
    cases hv : fields.lookup "value" with
    | none =>
      simp only [constantOf, hv]
      exact ⟨_, rfl⟩
    | some v =>
      simp only [constantOf, hv, hu]
      cases u with
      | text s => exact absurd rfl (htext s)
      | _ => exact ⟨_, rfl⟩

theorem Builds.not_overlooked {c : ConstantSource} (h : Builds host (name, d) c) :
    ¬ Overlooked d v := by
  intro ho
  cases h with
  | mk he hvalue =>
    cases ho with
    | table he' hv => exact hv (he'.unique he ▸ hvalue)

theorem Builds.not_refused {c : ConstantSource} (h : Builds host (name, d) c) : ¬ Refused d := by
  cases h with
  | mk he hvalue => exact he.not_refused (.inl hvalue)

/-- What comes of an entry: a constant, a constant of a value of the wrong type, a breakdown, or an
error of the document. -/
inductive Reads (host : Host) (path : Option String) (name : String) (d : Datum) :
    Except Stop ConstantSource → Prop
  | builds {c : ConstantSource} (hd : ¬ Inexpressible host d) (h : Builds host (name, d) c) :
      Reads host path name d (.ok c)
  | passes {v : Datum} (hd : ¬ Inexpressible host d) (ho : Overlooked d v) (c : ConstantSource) :
      Reads host path name d (.ok c)
  | breaks (hd : Inexpressible host d) (f : Fault) : Reads host path name d (.error (.fault f))
  | refuses (h : Refused d) (cause : SettingsError.Cause) :
      Reads host path name d (fail path cause)

theorem reads_constantOf (host : Host) (path : Option String) (name : String) (d : Datum) :
    Reads host path name d (constantOf host path name d) := by
  rcases d.entry_cases with ⟨v, u, he, h⟩ | hrefused
  · rw [constantOf_entry he h]
    rcases valueSource_cases he h with ⟨⟨source, hsource⟩, hd⟩ | ⟨⟨f, hf⟩, hd⟩
    · rw [hsource]
      rcases h with hvalue | ho
      · exact .builds hd ⟨he, hvalue, hsource⟩
      · exact .passes hd ho _
    · rw [hf]
      exact .breaks hd f
  · obtain ⟨cause, hcause⟩ : ∃ cause, constantOf host path name d = fail path cause :=
      constantOf_refused hrefused
    rw [hcause]
    exact .refuses hrefused cause

theorem Reads.of_ok {c : ConstantSource} (h : Reads host path name d (.ok c)) :
    ¬ Inexpressible host d ∧ ¬ Refused d ∧
      (Builds host (name, d) c ↔ ∀ v, ¬ Overlooked d v) := by
  cases h with
  | builds hd hb => exact ⟨hd, hb.not_refused, iff_of_true hb fun v => hb.not_overlooked⟩
  | passes hd ho =>
    exact ⟨hd, ho.not_refused, iff_of_false (fun hb => hb.not_overlooked ho) fun hv => hv _ ho⟩

theorem breaks_cons_iff :
    Breaks host ((name, d) :: constants) ↔
      Inexpressible host d ∨ ¬ Refused d ∧ Breaks host constants := by
  constructor
  · intro h
    cases h with
    | here hd => exact .inl hd
    | later hd h => exact .inr ⟨hd, h⟩
  · rintro (hd | ⟨hd, h⟩)
    · exact .here hd
    · exact .later hd h

def constantsOf (host : Host) (path : Option String) (constants : List (String × Datum)) :
    Except Stop (List ConstantSource) :=
  constants.mapM fun (name, d) => constantOf host path name d

theorem constantsOf_cons : constantsOf host path ((name, d) :: constants) =
    constantOf host path name d >>= fun c => constantsOf host path constants >>= fun cs => .ok
      (c :: cs) :=
  List.mapM_cons

/-- What comes of all entries: constants, a breakdown, or an error of the document. -/
inductive ReadsAll (host : Host) (path : Option String) (constants : List (String × Datum)) :
    Except Stop (List ConstantSource) → Prop
  | reads {cs : List ConstantSource} (hb : ¬ Breaks host constants)
      (hr : ∀ entry ∈ constants, ¬ Refused entry.2)
      (h : List.Forall₂ (Builds host) constants cs ↔
        ∀ entry ∈ constants, ∀ v, ¬ Overlooked entry.2 v) : ReadsAll host path constants (.ok cs)
  | breaks (hb : Breaks host constants) (f : Fault) :
      ReadsAll host path constants (.error (.fault f))
  | refuses (hb : ¬ Breaks host constants) (hr : ¬ ∀ entry ∈ constants, ¬ Refused entry.2)
      (cause : SettingsError.Cause) : ReadsAll host path constants (fail path cause)

/-- One more entry in front: it is read first, and the others only if a constant comes of it. -/
theorem ReadsAll.cons {r : Except Stop ConstantSource} {rs : Except Stop (List ConstantSource)}
    (hread : Reads host path name d r) (h : ReadsAll host path constants rs) :
    ReadsAll host path ((name, d) :: constants)
      (r >>= fun c => rs >>= fun cs => .ok (c :: cs)) := by
  cases r with
  | error stop =>
    cases hread with
    | breaks hd f => exact .breaks (.here hd) f
    | refuses hd cause =>
      refine .refuses ?_ (fun hr => hr _ List.mem_cons_self hd) cause
      rw [breaks_cons_iff, not_or, not_and]
      exact ⟨fun hinexpressible => hinexpressible.not_refused hd, absurd hd⟩
  | ok c =>
    obtain ⟨hd, hrefused, hbuilds⟩ := hread.of_ok
    have hbreaks : Breaks host ((name, d) :: constants) ↔ Breaks host constants := by
      rw [breaks_cons_iff, or_iff_right hd, and_iff_right hrefused]
    cases h with
    | breaks hb f => exact .breaks (hbreaks.mpr hb) f
    | refuses hb hr cause =>
      exact .refuses (hbreaks.not.mpr hb) (fun h => hr (List.forall_mem_cons.mp h).2) cause
    | reads hb hr h =>
      refine .reads (hbreaks.not.mpr hb) (List.forall_mem_cons.mpr ⟨hrefused, hr⟩) ?_
      rw [List.forall₂_cons, List.forall_mem_cons, h]
      exact and_congr_left fun _ => hbuilds

theorem readsAll_constantsOf (host : Host) (path : Option String)
    (constants : List (String × Datum)) :
    ReadsAll host path constants (constantsOf host path constants) := by
  induction constants with
  | nil =>
    exact .reads (by nofun) (List.forall_mem_nil _) (iff_of_true .nil (List.forall_mem_nil _))
  | cons entry rest ih =>
    rw [constantsOf_cons]
    exact ih.cons (reads_constantOf host path entry.1 entry.2)

end UnitSheet.Settings
