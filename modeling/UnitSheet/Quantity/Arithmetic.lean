import UnitSheet.Quantity.Basic
import UnitSheet.Expr.Operator

/-!
Arithmetic between quantities. Sums of unlike dimensions lose the dimension, products and quotients
add and subtract exponents, powers scale them.
-/
namespace UnitSheet.Quantity

/-- The sum of `a` and `sign` times `b`. -/
def addSigned (sign : Float) (a b : Quantity) : Quantity where
  value := a.value + sign * b.value
  imaginary := a.imaginary + sign * b.imaginary
  dimension := if a.dimension = b.dimension then a.dimension else .none
  figures := combineFigures a.figures b.figures

def add (a b : Quantity) : Quantity := addSigned 1 a b

def sub (a b : Quantity) : Quantity := addSigned (-1) a b

def ofComplex (z : ComplexFloat) (d : Dimension) (figures : Nat) : Quantity :=
  ⟨z.re, z.im, d, figures⟩

def mul (a b : Quantity) : Quantity :=
  let dimension := a.dimension * b.dimension
  let figures := combineFigures a.figures b.figures
  if a.isComplex || b.isComplex then ofComplex (a.toComplex * b.toComplex) dimension figures
  else ⟨a.value * b.value, 0, dimension, figures⟩

def div (a b : Quantity) : Quantity :=
  let dimension := a.dimension / b.dimension
  let figures := combineFigures a.figures b.figures
  if a.isComplex || b.isComplex then ofComplex (a.toComplex / b.toComplex) dimension figures
  else ⟨quotient a.value b.value, 0, dimension, figures⟩

/-- The dimension of a power: scaled by a plain exponent, and otherwise multiplied place by
place. -/
def powDimension (base exponent : Quantity) : Except Fault Dimension :=
  if exponent.dimension.isNone then base.dimension.scaled exponent.value
  else .ok (base.dimension.product exponent.dimension)

def pow (base exponent : Quantity) : Except Fault Quantity := do
  let dimension ← powDimension base exponent
  let figures := combineFigures base.figures exponent.figures
  if base.isComplex || exponent.isComplex then
    let z ← base.toComplex.pow exponent.toComplex
    return ofComplex z dimension figures
  else return ⟨power base.value exponent.value, 0, dimension, figures⟩

def arithmetic : Arithmetic → Quantity → Quantity → Except Fault Quantity
  | .add, a, b => .ok (add a b)
  | .sub, a, b => .ok (sub a b)
  | .mul, a, b => .ok (mul a b)
  | .div, a, b => .ok (div a b)
  | .pow, a, b => pow a b

def negate (q : Quantity) : Quantity := { q with value := -q.value, imaginary := -q.imaginary }

/-- The magnitude, in the same unit. -/
def absolute (q : Quantity) : Quantity :=
  if q.isComplex then { q with value := hypotenuse q.value q.imaginary, imaginary := 0 }
  else { q with value := q.value.abs }

/-- The product of `2`, …, `n + 1` as doubles, in this order. -/
def productTo : Nat → Float
  | 0 => 1
  | n + 1 => productTo n * Float.ofNat (n + 2)

/-- The factorial of the whole part; one below two, and infinite from where it leaves the
doubles. -/
def factorialOf (x : Float) : Float :=
  if x.isNaN then notANumber
  else if x ≥ 171 then infinity
  else if x < 2 then 1
  else productTo ((truncate x).toNat - 1)

/-- The factorial of the real part, a plain number. -/
def factorial (q : Quantity) : Quantity := ⟨factorialOf q.value, 0, .none, q.figures⟩

def compare : Comparison → Float → Float → Bool
  | .lt, x, y => x < y
  | .gt, x, y => x > y
  | .le, x, y => x ≤ y
  | .ge, x, y => x ≥ y
  | .ne, x, y => x != y

end UnitSheet.Quantity
