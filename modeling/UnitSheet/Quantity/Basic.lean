import UnitSheet.Complex.Basic
import UnitSheet.Decimal.Notation
import UnitSheet.Unit.Dimension

namespace UnitSheet

/-- The figures that survive an operation; zero stands for an exact number. -/
def combineFigures (m n : Nat) : Nat := if m = 0 then n else if n = 0 then m else min m n

structure Quantity where
  value : Float
  imaginary : Float := 0
  dimension : Dimension := .none
  figures : Nat := 0

/-- A number with ten digits; the imaginary part is shown unless it is zero. -/
def numberText (value imaginary : Float) : String :=
  if imaginary == 0 then roundedText 10 value
  else
    let re := roundedText 10 value
    let sign := if imaginary < 0 then "-" else "+"
    let im := roundedText 10 imaginary.abs
    s!"{re} {sign} {im}i"

namespace Quantity

/-- Whether the imaginary part counts; one that is not a number does. -/
def isComplex (q : Quantity) : Bool := q.imaginary != 0

def toComplex (q : Quantity) : ComplexFloat := ⟨q.value, q.imaginary⟩

def real (q : Quantity) : Quantity := if q.imaginary == 0 then q else { q with imaginary := 0 }

def withDimension (q : Quantity) (d : Dimension) : Quantity := { q with dimension := d }

def exact (q : Quantity) : Quantity := { q with figures := 0 }

def number (q : Quantity) : String := numberText q.value q.imaginary

def render (q : Quantity) : String :=
  if q.dimension.text.isEmpty then q.number else q.number ++ " " ++ q.dimension.text

end Quantity

end UnitSheet
