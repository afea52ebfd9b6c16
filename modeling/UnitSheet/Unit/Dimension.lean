import UnitSheet.Decimal.Binary
import UnitSheet.Fault

namespace UnitSheet

structure Dimension where
  length : Int := 0
  time : Int := 0
  mass : Int := 0
  current : Int := 0
  temperature : Int := 0
  amount : Int := 0
  luminous : Int := 0
deriving DecidableEq

namespace Dimension

def none : Dimension := {}

def exponents (d : Dimension) : List Int :=
  [d.length, d.time, d.mass, d.current, d.temperature, d.amount, d.luminous]

def ofExponents : List Int → Except Fault Dimension
  | [l, t, m, i, k, n, j] => .ok ⟨l, t, m, i, k, n, j⟩
  | es => .error (.dimensionCount es.length)

theorem ofExponents_exponents (d : Dimension) : ofExponents d.exponents = .ok d := rfl

theorem exponents_injective {d d' : Dimension} (h : d.exponents = d'.exponents) : d = d' := by
  cases d; cases d'; simpa [exponents] using h

def zipWith (f : Int → Int → Int) (a b : Dimension) : Dimension where
  length := f a.length b.length
  time := f a.time b.time
  mass := f a.mass b.mass
  current := f a.current b.current
  temperature := f a.temperature b.temperature
  amount := f a.amount b.amount
  luminous := f a.luminous b.luminous

/-- Exponents add in a product of quantities. -/
instance : Mul Dimension := ⟨zipWith (· + ·)⟩

/-- Exponents subtract in a quotient of quantities. -/
instance : Div Dimension := ⟨zipWith (· - ·)⟩

/-- Exponents multiply place by place, for a power whose exponent carries a unit. -/
def product (a b : Dimension) : Dimension := zipWith (· * ·) a b

def isNone (d : Dimension) : Bool := d = none

/-- One exponent times a finite factor, without the fraction. -/
def scaleExponent (factor : Float) (e : Int) : Except Fault Int :=
  let x := Float.ofInt e
  if x.isInf then .error .hugeExponent
  else if (x * factor).isInf then .error .infiniteExponent
  else .ok (truncate (x * factor))

/-- The dimension of a power; an exponent that is no finite number leaves none. -/
def scaled (d : Dimension) (factor : Float) : Except Fault Dimension :=
  if factor.isFinite then d.exponents.mapM (scaleExponent factor) >>= ofExponents
  else .ok none

/-- Symbols of the base units, in the order of the exponents. -/
def symbols : List String := ["m", "s", "kg", "A", "K", "mol", "cd"]

/-- A base unit to a power: nothing for zero, no exponent for one. -/
def factorText (symbol : String) (e : Int) : Option String :=
  if e = 0 then Option.none else if e = 1 then some symbol else some s!"{symbol}^{e}"

def text (d : Dimension) : String :=
  "·".intercalate ((symbols.zipWith factorText d.exponents).filterMap id)

end Dimension

end UnitSheet
