import UnitSheet.Complex.Functions

/-!
Real functions behind the built-in ones. Outside their domain they are not a number.
-/
namespace UnitSheet.Kernel

/-- The natural logarithm of a positive number. -/
def ln (x : Float) : Float := if x ≤ 0 then notANumber else x.log

/-- A function of the reciprocal, for the inverses of secant, cosecant and cotangent. -/
def ofReciprocal (f : Float → Float) (x : Float) : Float := if x == 0 then notANumber else f (1 / x)

def halfPi : Float := 1.5707963267948966

def arccot (x : Float) : Float := if x == 0 then halfPi else (1 / x).atan

/-- The next whole number upwards; zero has no sign. -/
def ceil (x : Float) : Float := if x.isFinite then x.ceil + 0 else x

/-- The next whole number downwards; zero has no sign. -/
def floor (x : Float) : Float := if x.isFinite then x.floor + 0 else x

/-- Rounds to decimal places, a half away from zero; a number whose scaling overflows stays. -/
def roundHalfAway (x places : Float) : Float :=
  if !x.isFinite then x
  else
    let multiplier := Float.pow 10 places
    if multiplier == 0 then withSign 0 x
    else
      let scaled := x.abs * multiplier
      if scaled.isFinite then withSign ((scaled + 0.5).floor / multiplier) x else x

/-- The logarithm to a base, which is ten where none or zero is given. -/
def log (x : Float) (base : Option Float) : Float :=
  let b := match base with
    | some b => if b == 0 then 10 else b
    | none => 10
  if x ≤ 0 || b < 0 || b == 1 || x.isNaN || b.isNaN then notANumber
  else if b == 10 then x.log10
  else x.log / b.log

/-- Products of whole numbers, left as soon as they pass the doubles. -/
def bound : Nat := 1 <<< 1100

/-- The product `n · (n - 1) ⋯ (n - k + 1)`, or some number beyond the bound. -/
def fallingFrom (n : Nat) : (k i product : Nat) → Nat
  | 0, _, product => product
  | k + 1, i, product => if product ≥ bound then product else fallingFrom n k (i + 1)
    (product * (n - i))

/-- Lets `n` over `i` grow to `n` over `i + k`, or to some number beyond the bound. -/
def binomialFrom (n : Nat) : (k i product : Nat) → Nat
  | 0, _, product => product
  | k + 1, i, product =>
    if product ≥ bound then product else binomialFrom n k (i + 1) (product * (n - i) / (i + 1))

/-- A count of `r` out of `n` by the whole parts; none for a negative `r` or one beyond `n`. -/
def count (f : Nat → Nat → Nat) (n r : Float) : Float :=
  if n.isNaN || r.isNaN then notANumber
  else if r < 0 || r > n then 0
  else if n.isInf || r.isInf then infinity
  else Float.ofNat (f (truncate n).toNat (truncate r).toNat)

def choose : Float → Float → Float := count fun n r => binomialFrom n (min r (n - r)) 0 1

def permute : Float → Float → Float := count fun n r => fallingFrom n r 0 1

end UnitSheet.Kernel
