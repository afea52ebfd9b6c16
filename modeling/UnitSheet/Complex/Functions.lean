import UnitSheet.Complex.Basic

/-!
Logarithm and circular functions of complex numbers that are not real. They have no value where a
finite part overflows or where the direction of the result turns without end.
-/
namespace UnitSheet.ComplexFloat

/-- The greatest double and the logarithm of its quarter bound the exponents in use. -/
def greatest : Float := Float.ofBits 0x7fefffffffffffff

def greatestExponent : Float := (greatest / 4).log

def leastNormal : Float := Float.ofBits 0x0010000000000000

def eulerNumber : Float := 2.718281828459045

def logTwo : Float := 0.6931471805599453

/-- The logarithm of `1 + x`, with the rounding of the sum put back. -/
def logOnePlus (x : Float) : Float :=
  let u := 1 + x
  u.log + (x - (u - 1)) / u

/-- The logarithm of the modulus, scaled where the modulus itself would overflow or lose digits and
expanded around one where it is close to one. -/
def logModulus (z : ComplexFloat) : Float :=
  let x := z.re.abs
  let y := z.im.abs
  if x > greatest / 4 || y > greatest / 4 then (hypotenuse (x / 2) (y / 2)).log + logTwo
  else if x < leastNormal && y < leastNormal then
    (hypotenuse (x.scaleB 53) (y.scaleB 53)).log - 53 * logTwo
  else
    let h := hypotenuse x y
    if 0.71 ≤ h && h ≤ 1.73 then
      let (big, small) := if x > y then (x, y) else (y, x)
      logOnePlus ((big - 1) * (big + 1) + small * small) / 2
    else h.log

def log (z : ComplexFloat) : ComplexFloat :=
  let re :=
    if z.re.isInf || z.im.isInf then infinity
    else if z.re.isNaN || z.im.isNaN then notANumber
    else logModulus z
  ⟨re, z.im.atan2 z.re⟩

/-- A number whose parts did not overflow. -/
def finite? (z : ComplexFloat) : Option ComplexFloat :=
  if z.re.isInf || z.im.isInf then none else some z

def isFinite (z : ComplexFloat) : Bool := z.re.isFinite && z.im.isFinite

/-- The part of a hyperbolic function that an infinite real part leaves: infinite, with a sign. -/
def infiniteLike (x : Float) : Float := withSign infinity x

def signOf (x : Float) : Float := withSign 1 x

/-- The parts of `cosh` (or of `sinh`, with `f` and `g` exchanged) of a finite number, as `f` times
the cosine and `g` times the sine; a large real part is reduced by one first. -/
def hyperbolic (f g : Float → Float) (z : ComplexFloat) : ComplexFloat :=
  if z.re.abs > greatestExponent then
    let x := z.re - signOf z.re
    ⟨z.im.cos * f x * eulerNumber, z.im.sin * g x * eulerNumber⟩
  else ⟨z.im.cos * f z.re, z.im.sin * g z.re⟩

/-- Both `cosh` and `sinh` where a part is not finite; `swap` puts the sign of the real part on the
real part of the result. -/
def hyperbolicLimit? (swap : Bool) (z : ComplexFloat) : Option ComplexFloat :=
  let side := signOf z.re
  let (reSide, imSide) := if swap then (side, 1) else (1, side)
  if z.im.isInf then if z.re.isNaN then some ⟨notANumber, notANumber⟩ else none
  else if z.re.isInf then
    if z.im.isNaN then some ⟨infinity, notANumber⟩
    else if z.im == 0 then some ⟨reSide * infinity, imSide * z.im⟩
    else some ⟨reSide * infiniteLike z.im.cos, imSide * infiniteLike z.im.sin⟩
  else if z.re.isNaN && z.im == 0 then some ⟨notANumber, if swap then z.im else 0⟩
  else some ⟨notANumber, notANumber⟩

def cosh? (z : ComplexFloat) : Option ComplexFloat :=
  if z.isFinite then finite? (hyperbolic Float.cosh Float.sinh z) else hyperbolicLimit? false z

def sinh? (z : ComplexFloat) : Option ComplexFloat :=
  if z.isFinite then finite? (hyperbolic Float.sinh Float.cosh z) else hyperbolicLimit? true z

/-- The value of `tanh` at a finite number; far from zero it is one up to the last digit. -/
def tanhFinite (z : ComplexFloat) : ComplexFloat :=
  if z.re.abs > greatestExponent then
    ⟨signOf z.re, 4 * z.im.sin * z.im.cos * (-2 * z.re.abs).exp⟩
  else
    let tx := z.re.tanh
    let ty := z.im.tan
    let cx := 1 / z.re.cosh
    let product := tx * ty
    let denominator := 1 + product * product
    ⟨tx * (1 + ty * ty) / denominator, ty / denominator * cx * cx⟩

def tanh? (z : ComplexFloat) : Option ComplexFloat :=
  if z.isFinite then some (tanhFinite z)
  else if z.re.isInf then
    let im :=
      if z.im.isNaN || z.im.isInf then 0
      else if z.im == 0 then z.im
      else withSign 0 (2 * z.im.sin * z.im.cos)
    some ⟨signOf z.re, im⟩
  else if z.re.isNaN then some ⟨notANumber, if z.im == 0 then z.im else notANumber⟩
  else if z.im.isInf then none
  else some ⟨notANumber, notANumber⟩

def timesI (z : ComplexFloat) : ComplexFloat := ⟨-z.im, z.re⟩

def overI (z : ComplexFloat) : ComplexFloat := ⟨z.im, -z.re⟩

def sin? (z : ComplexFloat) : Option ComplexFloat := (sinh? z.timesI).map overI

def cos? (z : ComplexFloat) : Option ComplexFloat := cosh? z.timesI

def tan? (z : ComplexFloat) : Option ComplexFloat := (tanh? z.timesI).map overI

end UnitSheet.ComplexFloat
