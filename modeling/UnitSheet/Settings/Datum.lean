import UnitSheet.Decimal.Notation
import UnitSheet.Decimal.Reading
import UnitSheet.Text.Quoted
import UnitSheet.Fault

namespace UnitSheet

/-- What the host has room for: the digits of a whole number in writing, of which it never has
fewer than 640, and the levels of a datum that is written, for which it needs its stack. -/
structure Host where
  digits : Nat := 4300
  levels : Nat := 1000
  le_digits : 640 ≤ digits := by decide

inductive Datum
  | null
  | boolean (b : Bool)
  | integer (n : Int)
  | float (x : Float)
  | text (s : String)
  | array (items : List Datum)
  | table (fields : List (String × Datum))

namespace Datum

def integerText (host : Host) (n : Int) : Except Fault String :=
  if host.digits < (Nat.toDigits 10 n.natAbs).length then .error (.longInteger host.digits)
  else .ok (toString n)

mutual

/-- A datum in writing, with room for `levels` levels. -/
def renderWithin (host : Host) : (levels : Nat) → Datum → Except Fault String
  | 0, _ => .error .deepDatum
  | _ + 1, null => .ok "None"
  | _ + 1, boolean b => .ok (if b then "True" else "False")
  | _ + 1, integer n => integerText host n
  | _ + 1, float x => .ok (shortestText x)
  | _ + 1, text s => .ok (Text.quoted s)
  | levels + 1, array items => do
    return "[" ++ ", ".intercalate (← renderItems host levels items) ++ "]"
  | levels + 1, table fields => do
    return "\x7b" ++ ", ".intercalate (← renderFields host levels fields) ++ "\x7d"

def renderItems (host : Host) : (levels : Nat) → List Datum → Except Fault (List String)
  | _, [] => .ok []
  | levels, d :: ds => do
    let text ← renderWithin host levels d
    return text :: (← renderItems host levels ds)

def renderFields (host : Host) : (levels : Nat) → List (String × Datum) → Except Fault (List String)
  | _, [] => .ok []
  | levels, (key, d) :: fields => do
    let text ← renderWithin host levels d
    return (Text.quoted key ++ ": " ++ text) :: (← renderFields host levels fields)

end

def render (d : Datum) (host : Host := {}) : Except Fault String := renderWithin host host.levels d

/-- The whole number that a signed run of digits stands for. -/
def exponentOf (cs : List Char) : Except Fault Int :=
  let (negative, digits) := Decimal.spanSign cs
  match Decimal.spanDigits digits with
  | (d :: ds, []) =>
    let n := Decimal.natOfDigits (d :: ds)
    .ok (if negative then -n else n)
  | _ => .error (.notInteger (String.ofList cs))

/-- A written number as an expression: an exponent becomes a product with a power of ten. -/
def powerSource (written : List Char) : Except Fault String :=
  match written.dropWhile (· ≠ 'e') with
  | [] => .ok (String.ofList written)
  | _ :: exponent => do
    let e ← exponentOf exponent
    let mantissa := String.ofList (written.takeWhile (· ≠ 'e'))
    return mantissa ++ "\\cdot 10^\x7b" ++ toString e ++ "\x7d"

/-- The expression that denotes a number. -/
def numberSource (d : Datum) (host : Host := {}) : Except Fault String := do
  powerSource (← d.render host).toList

end Datum

end UnitSheet
