import UnitSheet.Evaluation
import UnitSheet.Expr.Parser
import UnitSheet.Journal

namespace UnitSheet

/-- An expression with a unit that multiplies its value and a unit to express the result in; blank
texts stand for no unit. -/
structure Item where
  value : String
  unit : String := ""
  conversion : String := ""

structure Sheet where
  nesting : Int := Expr.defaultNesting
  depth : Int := 256
  constants : Bindings := {}
  assigned : Bindings := {}
  journal : List Event := []

def isBlankText (text : String) : Bool := text.toList.all Text.isBlank

namespace Expr

/-- The unit goes to the value part of a definition. -/
def attachUnit : Expr → (unit : Expr) → Expr
  | assign x value, unit => .assign x (value.mul unit)
  | define f params body, unit => .define f params (body.mul unit)
  | e, unit => e.mul unit

end Expr

namespace Sheet

/-- Works on a sheet, and leaves a sheet also when it stops. -/
abbrev Update (ε α : Type) := ExceptT ε (StateM Sheet) α

namespace Update

def lift {ε α : Type} (r : Except ε α) : Update ε α := fun s => (r, s)

def record {ε : Type} (e : Event) : Update ε Unit :=
  modify fun s => { s with journal := s.journal ++ [e] }

def fail {α : Type} (e : EvalError) : Update Stop α := throw (.eval e)

/-- The failure of an expression becomes its result; a breakdown goes on. -/
def attempt {α : Type} (m : Update Stop α) : Update Fault (Except Failure α) := fun s =>
  match m s with
  | (.ok a, s) => (.ok (.ok a), s)
  | (.error (.failure f), s) => (.ok (.error f), s)
  | (.error (.fault f), s) => (.error f, s)

end Update

open Update

def scope (s : Sheet) : Scope := { constants := s.constants, limit := s.depth }

def parse (s : Sheet) (item : Item) : Except Stop Expr := do
  let e ← Expr.parse item.value s.nesting
  if isBlankText item.unit then return e
  else
    let unit ← Expr.parse item.unit s.nesting
    return e.attachUnit unit

def evaluate (e : Expr) : Update Stop Value := fun s =>
  let (r, assigned) := e.eval s.scope s.assigned
  (r, { s with assigned })

/-- A quantity in a unit of its own dimension; any other is kept, with a warning. -/
def rescale (text : String) (unit q : Quantity) : Update Stop Quantity :=
  if q.dimension = unit.dimension then
    return { q with value := q.value / unit.value, imaginary := q.imaginary / unit.value }
  else do
    record (.conversionMismatch text q.dimension)
    return q

def rescaleValue (text : String) (unit : Quantity) : Value → Update Stop Value
  | .scalar q => .scalar <$> rescale text unit q
  | .list qs => .list <$> qs.mapM (rescale text unit)
  | v => pure v

/-- The value in a unit that has been evaluated; only a number other than zero is a unit. -/
def express (text : String) (v : Value) : (unit : Value) → Update Stop Value
  | .scalar unit => if unit.value == 0 then fail
    (.conversionUnit text) else rescaleValue text unit v
  | _ => fail (.conversionUnit text)

def convert (item : Item) (v : Value) : Update Stop Value :=
  if isBlankText item.conversion then pure v
  else do
    let s ← get
    let e ← lift (Expr.parse item.conversion s.nesting)
    let unit ← evaluate e
    express item.conversion v unit

def evaluateParsed (item : Item) (e : Expr) : Update Stop Value := do
  let v ← evaluate e
  convert item v

def evaluateItem (item : Item) : Update Stop Value := do
  let s ← get
  let e ← lift (s.parse item)
  evaluateParsed item e

/-- Constants are exact. -/
def insertConstant (name value unit : String) : Update Stop Value := do
  let s ← get
  let e ← lift (s.parse { value, unit })
  let v ← evaluate e
  let v := v.exact
  modify fun s => { s with constants := s.constants.insert name v }
  record (.constant name v)
  return v

def reset (s : Sheet) : Sheet := { s with assigned := {} }

end Sheet

end UnitSheet
