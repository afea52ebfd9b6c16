import UnitSheet.Proofs.Settings.Constants

namespace UnitSheet.Settings

open Datum (Refused Overlooked)

/-- A section of a document is a table, or absent and without entries. -/
inductive Section (data : List (String × Datum)) (name : String) : List (String × Datum) → Prop
  | absent (h : data.lookup name = none) : Section data name []
  | table {fields : List (String × Datum)} (h : data.lookup name = some (.table fields)) :
      Section data name fields

/-- A limit is a positive whole number, or the default. -/
inductive Limit (evaluator : List (String × Datum)) (key : String) (default : Int) : Int → Prop
  | absent (h : evaluator.lookup key = none) : Limit evaluator key default default
  | integer {n : Int} (h : evaluator.lookup key = some (.integer n)) (hn : 0 < n) :
      Limit evaluator key default n

/-- The severity is named in letters of either case; a warning is the default. -/
inductive Names (evaluator : List (String × Datum)) : Severity → Prop
  | absent (h : evaluator.lookup "log_level" = none) : Names evaluator .warning
  | text {s : String} {severity : Severity} (h : evaluator.lookup "log_level" = some (.text s))
      (hs : capitals s = severity.name) : Names evaluator severity

/-- The settings that the sections of a document describe; the constants keep their order. -/
structure Describes (host : Host) (evaluator constants : List (String × Datum)) (s : Settings) :
    Prop where
  nesting : Limit evaluator "max_depth" Expr.defaultNesting s.nesting
  depth : Limit evaluator "max_eval_depth" 256 s.depth
  severity : Names evaluator s.severity
  constants : List.Forall₂ (Builds host) constants s.constants

/-- The settings that a document describes. -/
def Described (host : Host) (data : List (String × Datum)) (s : Settings) : Prop :=
  0 < s.nesting ∧ 0 < s.depth ∧ ∃ evaluator constants, Section data "evaluator" evaluator ∧
    Section data "constants" constants ∧ Describes host evaluator constants s

/-- A reading comes to settings of some kind, or to an error of the document. -/
def Answers (path : Option String) (Q : Settings → Prop) : Except Stop Settings → Prop
  | .ok s => Q s
  | .error (.error e) => e.path = path
  | .error (.fault _) => False

/-- A setting is of the wrong kind and has no writing, which its error or its check asks for. -/
def Illegible (host : Host) (evaluator : List (String × Datum)) (key : String)
    (Fits : Datum → Prop) : Prop :=
  ∃ d, evaluator.lookup key = some d ∧ ¬ Fits d ∧ d.Unwritable host

def IsText (d : Datum) : Prop := ∃ s, d = .text s

def IsPositive (d : Datum) : Prop := ∃ n, d = .integer n ∧ 0 < n

/-- Where the reading breaks down, in the order of what is read, or lets a value of the wrong type
become a constant. -/
inductive Misread (host : Host) (evaluator constants : List (String × Datum)) : Prop
  | severity (h : Illegible host evaluator "log_level" IsText)
  | constant (hs : ∃ severity, Names evaluator severity) (h : Breaks host constants)
  | nesting (hs : ∃ severity, Names evaluator severity)
      (hr : ∀ entry ∈ constants, ¬ Refused entry.2)
      (h : Illegible host evaluator "max_depth" IsPositive)
  | depth (hs : ∃ severity, Names evaluator severity)
      (hr : ∀ entry ∈ constants, ¬ Refused entry.2)
      (hn : ∃ n, Limit evaluator "max_depth" Expr.defaultNesting n)
      (h : Illegible host evaluator "max_eval_depth" IsPositive)
  | overlooked (hs : ∃ severity, Names evaluator severity)
      (hr : ∀ entry ∈ constants, ¬ Refused entry.2)
      (hn : ∃ n, Limit evaluator "max_depth" Expr.defaultNesting n)
      (hd : ∃ n, Limit evaluator "max_eval_depth" 256 n)
      (ho : ∃ entry ∈ constants, ∃ v, Overlooked entry.2 v)

variable {host : Host} {path : Option String} {data evaluator constants : List (String × Datum)}
variable {name key text : String} {d : Datum} {default : Int} {Fits : Datum → Prop}

/-- A reading comes to what there is to read, breaks down in the case given, and comes to an error
of the document else. -/
inductive Settles {α : Type} (path : Option String) (P : α → Prop) (B : Prop) :
    Except Stop α → Prop
  | ok {a : α} (hb : ¬ B) (ha : P a) : Settles path P B (.ok a)
  | breaks (hb : B) (hnone : ¬ ∃ a, P a) (f : Fault) : Settles path P B (.error (.fault f))
  | fails (hb : ¬ B) (hnone : ¬ ∃ a, P a) (cause : SettingsError.Cause) :
      Settles path P B (fail path cause)

theorem settles_tableOf (path : Option String) (data : List (String × Datum)) (name : String) :
    Settles path (Section data name) False (tableOf path data name) := by
  rw [tableOf]
  cases hlookup : data.lookup name with
  | none => exact .ok id (.absent hlookup)
  | some d =>
    cases d with
    | table fields => exact .ok id (.table hlookup)
    | _ =>
      refine .fails id (fun ⟨fields, h⟩ => ?_) _
      rcases h with h | h
      · cases hlookup.symm.trans h
      · cases hlookup.symm.trans h

theorem Section.unique {fields fields' : List (String × Datum)} (h : Section data name fields)
    (h' : Section data name fields') : fields = fields' := by
  rcases h with h | h
  · rcases h' with h' | h'
    · rfl
    · cases h.symm.trans h'
  · rcases h' with h' | h'
    · cases h.symm.trans h'
    · cases h.symm.trans h'
      rfl

theorem not_illegible_of_none (h : evaluator.lookup key = none) :
    ¬ Illegible host evaluator key Fits := by
  intro ⟨d, hd, _⟩
  cases h.symm.trans hd

theorem illegible_iff (h : evaluator.lookup key = some d) :
    Illegible host evaluator key Fits ↔ ¬ Fits d ∧ d.Unwritable host := by
  constructor
  · intro ⟨d', hd', hillegible⟩
    cases h.symm.trans hd'
    exact hillegible
  · exact fun hd => ⟨d, h, hd⟩

/-- A setting of the wrong kind is written, and then refused. -/
theorem settles_render {α : Type} {P : α → Prop} (h : evaluator.lookup key = some d)
    (hd : ¬ Fits d) (hnone : ¬ ∃ a, P a) (next : String → Except Stop α)
    (hnext : ∀ text, d.render host = .ok text → ∃ cause, next text = fail path cause) :
    Settles path P (Illegible host evaluator key Fits) (do next (← render host d)) := by
  rw [render]
  cases hr : d.render host with
  | error f =>
    have hunwritable := Datum.render_error_iff.mp ⟨f, hr⟩
    exact .breaks ((illegible_iff h).mpr ⟨hd, hunwritable⟩) hnone f
  | ok text =>
    obtain ⟨cause, hcause⟩ := hnext text hr
    change Settles path P _ (next text)
    rw [hcause]
    have hwritable := Datum.not_unwritable_of_render hr
    exact .fails (fun hb => hwritable ((illegible_iff h).mp hb).2) hnone cause

theorem limit_iff {n : Int} (h : evaluator.lookup key = some d) :
    Limit evaluator key default n ↔ d = .integer n ∧ 0 < n := by
  constructor
  · intro hlimit
    cases hlimit with
    | absent hnone => cases h.symm.trans hnone
    | integer hsome hn => exact ⟨Option.some.inj (h.symm.trans hsome), hn⟩
  · rintro ⟨rfl, hn⟩
    exact .integer h hn

theorem positive_of_not {path : Option String} (h : evaluator.lookup key = some d)
    (hd : ¬ IsPositive d) :
    positive host path evaluator key default = refuseLimit host path key d := by
  rw [positive, h]
  cases d with
  | integer n => exact if_neg fun hn => hd ⟨n, rfl, hn⟩
  | _ => rfl

theorem settles_positive (host : Host) (path : Option String) (evaluator : List (String × Datum))
    (key : String) (default : Int) :
    Settles path (Limit evaluator key default) (Illegible host evaluator key IsPositive)
      (positive host path evaluator key default) := by
  cases hlookup : evaluator.lookup key with
  | none =>
    rw [positive, hlookup]
    exact .ok (not_illegible_of_none hlookup) (.absent hlookup)
  | some d =>
    by_cases hd : IsPositive d
    · obtain ⟨n, rfl, hn⟩ := hd
      rw [positive, hlookup]
      dsimp only
      rw [if_pos hn]
      exact .ok (fun h => ((illegible_iff hlookup).mp h).1 ⟨n, rfl, hn⟩) (.integer hlookup hn)
    · have hnone : ¬ ∃ n, Limit evaluator key default n :=
        fun ⟨n, h⟩ => hd ⟨n, (limit_iff hlookup).mp h⟩
      rw [positive_of_not hlookup hd]
      exact settles_render hlookup hd hnone _ fun _ _ => ⟨_, rfl⟩

theorem ofName?_eq_some_iff {severity : Severity} :
    Severity.ofName? text = some severity ↔ text = severity.name := by
  rw [Severity.ofName?]
  constructor
  · intro h
    have hname := List.find?_some h
    exact (of_decide_eq_true hname).symm
  · rintro rfl
    cases severity <;> decide

theorem isUpper_of_mem_name {severity : Severity} {c : Char} (hc : c ∈ severity.name.toList) :
    c.isUpper = true := by
  have hall : severity.name.toList.all Char.isUpper = true := by cases severity <;> decide
  exact List.all_eq_true.mp hall c hc

theorem isUpper_capital_of_isDigit {c : Char} (h : c.isDigit = true) :
    (capital c).isUpper = false := by
  have hdotless : c ≠ 'ı' := by
    rintro rfl
    exact absurd h (by decide)
  have hle : c.val ≤ 57 := of_decide_eq_true (Bool.and_eq_true_iff.mp h).2
  have hlower : c.toUpper = c :=
    dif_neg fun ⟨ha, _⟩ => absurd (UInt32.le_trans ha hle) (by decide)
  have hupper : c.isUpper = false := by
    rw [Bool.eq_false_iff]
    intro hc
    have ha : 65 ≤ c.val := (of_decide_eq_true hc).1
    exact absurd (UInt32.le_trans ha hle) (by decide)
  rw [capital, if_neg hdotless, hlower, hupper]

theorem ofName?_eq_none
    (h : ∀ severity : Severity, severity.name.toList ≠ text.toList.map capital) :
    Severity.ofName? (capitals text) = none := by
  rw [Option.eq_none_iff_forall_ne_some]
  intro severity hname
  apply h severity
  rw [← ofName?_eq_some_iff.mp hname, capitals, String.toList_ofList]

theorem ofName?_of_mem {c : Char} (hc : c ∈ text.toList) (hupper : (capital c).isUpper = false) :
    Severity.ofName? (capitals text) = none := by
  refine ofName?_eq_none fun severity h => ?_
  have hmem : capital c ∈ severity.name.toList := h ▸ List.mem_map_of_mem hc
  rw [isUpper_of_mem_name hmem] at hupper
  cases hupper

theorem ofName?_of_shows (h : Datum.Shows d text) (hd : ¬ IsText d) :
    Severity.ofName? (capitals text) = none := by
  have hdigit {w : Decimal.Written} (hw : w.chars = text.toList) :
      Severity.ofName? (capitals text) = none := by
    obtain ⟨c, cs, hc, hmantissa⟩ := w.exists_mantissa
    refine ofName?_of_mem (c := c) ?_ (isUpper_capital_of_isDigit hc)
    rw [← hw, Decimal.Written.chars, hmantissa]
    simp
  cases h with
  | null => exact ofName?_eq_none fun severity => by cases severity <;> decide
  | boolean b => cases b <;> exact ofName?_eq_none fun severity => by cases severity <;> decide
  | integer n => exact hdigit (Decimal.Written.chars_ofInt n)
  | text s => exact absurd ⟨s, rfl⟩ hd
  | array items inner => exact ofName?_of_mem (c := '[') (by simp) (by decide)
  | table fields inner => exact ofName?_of_mem (c := '\x7b') (by simp) (by decide)
  | float x =>
    rcases Notation.float_cases x with ⟨hfinite, -⟩ | ⟨-, hnan | ⟨hnan, hinf⟩⟩
    · obtain ⟨w, hw⟩ := Notation.exact.exists_write hfinite Scaled.shortest
      exact hdigit hw
    · rw [shortestText, Notation.write, hnan, if_pos rfl]
      exact ofName?_eq_none fun severity => by cases severity <;> decide
    · rw [shortestText, Notation.write, hnan, hinf]
      refine ofName?_eq_none fun severity => ?_
      dsimp only
      rw [if_neg Bool.false_ne_true, if_pos rfl, String.toList_ofList]
      cases (Binary.ofFloat x).negative <;> cases severity <;> decide

theorem names_iff {severity : Severity} (h : evaluator.lookup "log_level" = some d) :
    Names evaluator severity ↔ ∃ s, d = .text s ∧ capitals s = severity.name := by
  constructor
  · intro hnames
    cases hnames with
    | absent hnone => cases h.symm.trans hnone
    | text hsome hs => exact ⟨_, Option.some.inj (h.symm.trans hsome), hs⟩
  · rintro ⟨s, rfl, hs⟩
    exact .text h hs

theorem severityText_of_not (h : evaluator.lookup "log_level" = some d) (hd : ¬ IsText d) :
    severityText host evaluator = render host d := by
  rw [severityText, h]
  cases d with
  | text s => exact absurd ⟨s, rfl⟩ hd
  | _ => rfl

theorem settles_severityOf (host : Host) (path : Option String)
    (evaluator : List (String × Datum)) :
    Settles path (Names evaluator) (Illegible host evaluator "log_level" IsText)
      (severityOf host path evaluator) := by
  rw [severityOf]
  cases hlookup : evaluator.lookup "log_level" with
  | none =>
    rw [severityText, hlookup]
    exact Settles.ok (not_illegible_of_none hlookup) (Names.absent hlookup)
  | some d =>
    by_cases hd : IsText d
    · obtain ⟨s, rfl⟩ := hd
      have hb : ¬ Illegible host evaluator "log_level" IsText :=
        fun h => ((illegible_iff hlookup).mp h).1 ⟨s, rfl⟩
      rw [severityText, hlookup]
      change Settles path _ _ (severityNamed path s)
      rw [severityNamed]
      cases hname : Severity.ofName? (capitals s) with
      | some severity => exact .ok hb (.text hlookup (ofName?_eq_some_iff.mp hname))
      | none =>
        refine .fails hb (fun ⟨severity, h⟩ => ?_) _
        obtain ⟨_, ⟨⟩, hs⟩ := (names_iff hlookup).mp h
        rw [ofName?_eq_some_iff.mpr hs] at hname
        cases hname
    · have hnone : ¬ ∃ severity, Names evaluator severity := by
        rintro ⟨severity, h⟩
        obtain ⟨s, hs, -⟩ := (names_iff hlookup).mp h
        exact hd ⟨s, hs⟩
      rw [severityText_of_not hlookup hd]
      refine settles_render hlookup hd hnone (fun text => severityNamed path text) fun text hr => ?_
      rw [severityNamed, ofName?_of_shows (Datum.shows_of_render hr) hd]
      exact ⟨_, rfl⟩

theorem Limit.pos {n : Int} (h : Limit evaluator key default n) (hdefault : 0 < default) :
    0 < n := by
  cases h with
  | absent => exact hdefault
  | integer _ hn => exact hn

def ofSections (host : Host) (path : Option String) (evaluator constants : List (String × Datum)) :
    Except Stop Settings := do
  let severity ← severityOf host path evaluator
  let constants ← constantsOf host path constants
  let nesting ← positive host path evaluator "max_depth" Expr.defaultNesting
  let depth ← positive host path evaluator "max_eval_depth" 256
  return { nesting, depth, severity, constants }

/-- A reading with one more step in front, where `M` is what it must not meet. -/
theorem Settles.answers_bind_iff {α : Type} {P : α → Prop} {Q : Settings → Prop} {B M : Prop}
    {m : Except Stop α} {next : α → Except Stop Settings} (h : Settles path P B m) (hbreaks : B → M)
    (hmeets : M → B ∨ ∃ a, P a)
    (hnext : ∀ a, ¬ B → P a → (Answers path Q (next a) ↔ ¬ M)) :
    Answers path Q (m >>= next) ↔ ¬ M := by
  cases h with
  | breaks hb => exact iff_of_false id fun hm => hm (hbreaks hb)
  | fails hb hnone => exact iff_of_true rfl fun hm => (hmeets hm).elim hb hnone
  | ok hb ha => exact hnext _ hb ha

theorem ofSections_answers_iff (host : Host) (path : Option String)
    (evaluator constants : List (String × Datum)) :
    Answers path (Describes host evaluator constants) (ofSections host path evaluator constants) ↔
      ¬ Misread host evaluator constants := by
  rw [ofSections]
  apply (settles_severityOf host path evaluator).answers_bind_iff .severity
  · intro h
    cases h with
    | severity h => exact .inl h
    | constant hs | nesting hs | depth hs | overlooked hs => exact .inr hs
  intro severity hsb hseverity
  have hs : ∃ severity, Names evaluator severity := ⟨severity, hseverity⟩
  have hconstants := readsAll_constantsOf host path constants
  generalize constantsOf host path constants = r at hconstants
  cases hconstants with
  | breaks hb => exact iff_of_false id fun h => h (.constant hs hb)
  | refuses hb hrefused =>
    refine iff_of_true rfl fun h => ?_
    cases h with
    | severity h => exact hsb h
    | constant _ h => exact hb h
    | nesting _ hr | depth _ hr | overlooked _ hr => exact hrefused hr
  | @reads cs hb hr hbuilds =>
  apply (settles_positive host path evaluator "max_depth" _).answers_bind_iff (.nesting hs hr)
  · intro h
    cases h with
    | severity h => exact absurd h hsb
    | constant _ h => exact absurd h hb
    | nesting _ _ h => exact .inl h
    | depth _ _ hn | overlooked _ _ hn => exact .inr hn
  intro nesting hnb hnesting
  have hn : ∃ n, Limit evaluator "max_depth" Expr.defaultNesting n := ⟨nesting, hnesting⟩
  apply (settles_positive host path evaluator "max_eval_depth" _).answers_bind_iff
    (.depth hs hr hn)
  · intro h
    cases h with
    | severity h => exact absurd h hsb
    | constant _ h => exact absurd h hb
    | nesting _ _ h => exact absurd h hnb
    | depth _ _ _ h => exact .inl h
    | overlooked _ _ _ hd => exact .inr hd
  intro depth hdb hdepth
  have hdescribes : Describes host evaluator constants ⟨nesting, depth, severity, cs⟩ ↔
      List.Forall₂ (Builds host) constants cs :=
    ⟨fun h => h.constants, fun h => ⟨hnesting, hdepth, hseverity, h⟩⟩
  refine hdescribes.trans (hbuilds.trans ⟨fun hnot h => ?_, fun hnot entry hmem v ho => ?_⟩)
  · cases h with
    | severity h => exact hsb h
    | constant _ h => exact hb h
    | nesting _ _ h => exact hnb h
    | depth _ _ _ h => exact hdb h
    | overlooked _ _ _ _ ho =>
      obtain ⟨entry, hmem, v, ho⟩ := ho
      exact hnot entry hmem v ho
  · exact hnot (.overlooked hs hr hn ⟨depth, hdepth⟩ ⟨entry, hmem, v, ho⟩)

/-- Reading a document comes to the settings that it describes, or to an error of the document,
except where something of the wrong type has no writing or is overlooked, or a number has none. -/
theorem ofData_answers_iff (host : Host) (path : Option String) (data : List (String × Datum)) :
    Answers path (Described host data) (ofData path data host) ↔
      ¬ ∃ evaluator constants, Section data "evaluator" evaluator ∧
        Section data "constants" constants ∧ Misread host evaluator constants := by
  rw [ofData]
  apply (settles_tableOf path data "evaluator").answers_bind_iff False.elim
  · exact fun ⟨evaluator, _, h, _⟩ => .inr ⟨evaluator, h⟩
  intro evaluator _ hsection
  apply (settles_tableOf path data "constants").answers_bind_iff False.elim
  · exact fun ⟨_, constants, _, h, _⟩ => .inr ⟨constants, h⟩
  intro constants _ hsection'
  -- the sections are the only ones that the document has
  have hmisread : (∃ evaluator constants, Section data "evaluator" evaluator ∧
      Section data "constants" constants ∧ Misread host evaluator constants) ↔
      Misread host evaluator constants := by
    constructor
    · rintro ⟨evaluator', constants', h, h', hmisread⟩
      rwa [hsection.unique h, hsection'.unique h']
    · exact fun h => ⟨evaluator, constants, hsection, hsection', h⟩
  have hdescribed (s : Settings) :
      Described host data s ↔ Describes host evaluator constants s := by
    constructor
    · rintro ⟨_, _, evaluator', constants', h, h', hs⟩
      rwa [hsection.unique h, hsection'.unique h']
    · intro h
      exact ⟨h.nesting.pos (by decide), h.depth.pos (by decide), evaluator, constants, hsection,
        hsection', h⟩
  rw [hmisread, ← ofSections_answers_iff host path, funext fun s => propext (hdescribed s)]
  rfl

def oneConstant (v : Datum) : List (String × Datum) :=
  [("constants", .table [("g", .table [("value", v)])])]

/-- A truth value in a table breaks the reading down, and an array in one becomes a constant. -/
theorem oneConstant_overlooked :
    ofData none (oneConstant (.boolean true)) = .error (.fault (.notInteger "")) ∧
      ∃ s, ofData none (oneConstant (.array [.integer 1, .integer 2])) = .ok s ∧
        s.constants.map ConstantSource.value = ["[1, 2]"] ∧
        ¬ Described {} (oneConstant (.array [.integer 1, .integer 2])) s := by
  refine ⟨rfl, ⟨Expr.defaultNesting, 256, .warning, [⟨"g", "[1, 2]", ""⟩]⟩, rfl, rfl, ?_⟩
  rintro ⟨_, _, evaluator, constants, _, hconstants, hs⟩
  have hsection : (oneConstant (.array [.integer 1, .integer 2])).lookup "constants" =
      some (.table [("g", .table [("value", .array [.integer 1, .integer 2])])]) := rfl
  have hbuilds := hs.constants
  cases hconstants with
  | absent h => exact absurd (h.symm.trans hsection) (by nofun)
  | table h =>
    cases h.symm.trans hsection
    obtain ⟨hentry, -⟩ := List.forall₂_cons.mp hbuilds
    refine hentry.not_overlooked (Overlooked.table (.unitless rfl rfl) ?_)
    nofun

end UnitSheet.Settings
