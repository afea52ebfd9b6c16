import UnitSheet.Value.Basic

namespace UnitSheet

inductive Severity
  | debug | info | warning | error | critical
deriving DecidableEq

namespace Severity

def all : List Severity := [debug, info, warning, error, critical]

def name : Severity → String
  | debug => "DEBUG" | info => "INFO" | warning => "WARNING"
  | error => "ERROR" | critical => "CRITICAL"

def rank : Severity → Nat
  | debug => 10 | info => 20 | warning => 30 | error => 40 | critical => 50

def ofName? (text : String) : Option Severity := all.find? (·.name = text)

end Severity

inductive Event
  | settingsLoaded (path : String)
  | constant (name : String) (value : Value)
  | notParsed (index : Nat) (failure : Failure)
  | failed (index : Nat) (failure : Failure)
  | evaluated (index : Nat) (value : Value)
  | conversionMismatch (unit : String) (found : Dimension)
  | cycle (indices : List Nat)

namespace Event

def severity : Event → Severity
  | conversionMismatch _ _ | cycle _ => .warning
  | _ => .debug

/-- The part of the program that an event comes from. -/
def origin : Event → String
  | settingsLoaded _ => "dimeval.cli"
  | _ => "dimeval.core.engine"

def message : Event → String
  | settingsLoaded path => s!"Loaded config from {path}"
  | constant name value => s!"Constant {name} = {value.render}"
  | notParsed index failure => s!"Expression {index} did not parse: {failure.message}"
  | failed index failure => s!"Expression {index} failed: {failure.message}"
  | evaluated index value => s!"Expression {index} = {value.render}"
  | conversionMismatch unit found =>
    s!"Conversion unit {unit} does not match result unit {found.text}"
  | cycle indices =>
    let list := ", ".intercalate (indices.map toString)
    s!"Dependency cycle among expressions [{list}]; using input order"

def render (e : Event) : String := s!"{e.severity.name} {e.origin}: {e.message}"

end Event

/-- The events of at least some severity. -/
def eventsFrom (least : Severity) (events : List Event) : List Event :=
  events.filter fun e => least.rank ≤ e.severity.rank

end UnitSheet
