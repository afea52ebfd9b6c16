import UnitSheet.Text.Quoted

namespace UnitSheet

inductive Fault
  /-- A run of digits with one that has no decimal value. -/
  | notDecimal (text : String)
  | notInteger (text : String)
  /-- An exponent of a unit beyond the greatest double. -/
  | hugeExponent
  | infiniteExponent
  | dimensionCount (count : Nat)
  /-- A direction at an infinite angle. -/
  | infiniteAngle
  | infiniteModulus
  /-- A whole number with more digits than the host writes. -/
  | longInteger (limit : Nat)
  /-- A numeral of a whole number with more digits than the host reads. -/
  | longNumeral (limit digits : Nat)
  /-- A datum with more levels than the stack of the host has room for. -/
  | deepDatum
deriving DecidableEq

namespace Fault

/-- Overflow of a number, as against a text or an argument that has none. -/
def isOverflow : Fault → Bool
  | hugeExponent | infiniteExponent | infiniteModulus => true
  | notDecimal _ | notInteger _ | dimensionCount _ | infiniteAngle => false
  | longInteger _ | longNumeral _ _ | deepDatum => false

def longMessage (limit : Nat) (more : String) : String :=
  s!"Exceeds the limit ({limit} digits) for integer string conversion{more}; " ++
    "use sys.set_int_max_str_digits() to increase the limit"

def message : Fault → String
  | notDecimal text => s!"could not convert string to float: {Text.quoted text}"
  | notInteger text =>
    let shown := String.ofList ((Text.quoted text).toList.take 200)
    s!"invalid literal for int() with base 10: {shown}"
  | hugeExponent => "int too large to convert to float"
  | infiniteExponent => "cannot convert float infinity to integer"
  | dimensionCount count => s!"UnitVector needs 7 exponents, got {count}"
  | infiniteAngle => "math domain error"
  | infiniteModulus => "math range error"
  | longInteger limit => longMessage limit ""
  | longNumeral limit digits => longMessage limit s!": value has {digits} digits"
  | deepDatum => "maximum recursion depth exceeded while getting the repr of an object"

end Fault

end UnitSheet
