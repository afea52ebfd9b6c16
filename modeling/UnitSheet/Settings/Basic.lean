import UnitSheet.Journal
import UnitSheet.Settings.Datum
import UnitSheet.Sheet.Constants

namespace UnitSheet

structure Settings where
  nesting : Int := Expr.defaultNesting
  depth : Int := 256
  severity : Severity := .warning
  constants : List ConstantSource := []

inductive SettingsError.Cause
  | notFound
  | malformed
  | notATable (name : String)
  | severity
  | missingValue (constant : String)
  | unitNotText (constant : String)
  | notPositive (key shown : String)

namespace SettingsError.Cause

def message : Cause → String
  | notFound => "config file not found"
  | malformed => "invalid TOML:"
  | notATable name => s!"[{name}] must be a table"
  | severity =>
    let names := ", ".intercalate (Severity.all.map Severity.name)
    s!"evaluator.log_level must be one of {names}"
  | missingValue constant => s!"constants.{constant} needs a 'value'"
  | unitNotText constant => s!"constants.{constant}.unit must be a string"
  | notPositive key shown => s!"evaluator.{key} must be a positive integer, got {shown}"

end SettingsError.Cause

/-- An error in a document, with its path if it has one. -/
structure SettingsError where
  cause : SettingsError.Cause
  path : Option String

namespace SettingsError

def message (e : SettingsError) : String :=
  match e.path with
  | some path => s!"{path}: {e.cause.message}"
  | none => e.cause.message

end SettingsError

namespace Settings

/-- Reading settings stops with an error of the document or with a breakdown. -/
inductive Stop
  | error (e : SettingsError)
  | fault (f : Fault)

def fail {α : Type} (path : Option String) (cause : SettingsError.Cause) : Except Stop α :=
  .error (.error ⟨cause, path⟩)

def tableOf (path : Option String) (data : List (String × Datum)) (name : String) :
    Except Stop (List (String × Datum)) :=
  match data.lookup name with
  | none => .ok []
  | some (.table fields) => .ok fields
  | some _ => fail path (.notATable name)

/-- Capital letters; a dotless small i has the capital of a dotted one. -/
def capital (c : Char) : Char := if c = 'ı' then 'I' else c.toUpper

def capitals (text : String) : String := String.ofList (text.toList.map capital)

section

variable (host : Host) (path : Option String)

def render (d : Datum) : Except Stop String := (d.render host).mapError .fault

def severityText (evaluator : List (String × Datum)) : Except Stop String :=
  match evaluator.lookup "log_level" with
  | none => .ok "WARNING"
  | some (.text s) => .ok s
  | some d => render host d

/-- A severity is named in letters of either case. -/
def severityNamed (text : String) : Except Stop Severity :=
  match Severity.ofName? (capitals text) with
  | some s => .ok s
  | none => fail path .severity

def severityOf (evaluator : List (String × Datum)) : Except Stop Severity := do
  severityNamed path (← severityText host evaluator)

def numberSource (d : Datum) : Except Stop String := (d.numberSource host).mapError .fault

/-- The expression of a constant: a text as it stands, and any other datum as a number. -/
def valueSource : Datum → Except Stop String
  | .text s => .ok s
  | d => numberSource host d

/-- A constant by its number or text alone, or in a table with its unit. -/
def constantOf (name : String) : Datum → Except Stop ConstantSource
  | .integer n => do return ⟨name, ← numberSource host (.integer n), ""⟩
  | .float x => do return ⟨name, ← numberSource host (.float x), ""⟩
  | .text s => .ok ⟨name, s, ""⟩
  | .table fields =>
    match fields.lookup "value" with
    | none => fail path (.missingValue name)
    | some v =>
      match fields.lookup "unit" with
      | none => do return ⟨name, ← valueSource host v, ""⟩
      | some (.text unit) => do return ⟨name, ← valueSource host v, unit⟩
      | some _ => fail path (.unitNotText name)
  | _ => fail path (.missingValue name)

/-- The error of a limit shows what stands for it. -/
def refuseLimit (key : String) (d : Datum) : Except Stop Int := do
  fail path (.notPositive key (← render host d))

def positive (evaluator : List (String × Datum)) (key : String) (default : Int) :
    Except Stop Int :=
  match evaluator.lookup key with
  | none => .ok default
  | some (.integer n) => if 0 < n then .ok n else refuseLimit host path key (.integer n)
  | some d => refuseLimit host path key d

end

/-- The settings of a document; its constants keep their order. -/
def ofData (path : Option String) (data : List (String × Datum)) (host : Host := {}) :
    Except Stop Settings := do
  let evaluator ← tableOf path data "evaluator"
  let constants ← tableOf path data "constants"
  let severity ← severityOf host path evaluator
  let constants ← constants.mapM fun (name, d) => constantOf host path name d
  let nesting ← positive host path evaluator "max_depth" Expr.defaultNesting
  let depth ← positive host path evaluator "max_eval_depth" 256
  return { nesting, depth, severity, constants }

/-- A new sheet with these settings. -/
def sheet (s : Settings) : Except UnitSheet.Stop Unit × Sheet :=
  Sheet.new s.nesting s.depth s.constants true

end Settings

end UnitSheet
