import UnitSheet.Decimal.Binary
import UnitSheet.Fault

namespace UnitSheet

/-- A quotient by zero is infinite with the sign of both sides, or not a number for zero by zero. -/
def quotient (a b : Float) : Float :=
  if b == 0 then
    if a == 0 || a.isNaN then notANumber
    else if signBit a == signBit b then infinity else -infinity
  else a / b

/-- A negative power of zero is infinite. -/
def power (base exponent : Float) : Float :=
  if base == 0 && exponent < 0 then infinity else base.pow exponent

/-- The power of two `2 ^ e`, for an exponent of finite doubles. -/
def powerOfTwo (e : Int) : Float :=
  if e < -1022 then Float.ofBits (1 <<< (e + 1074).toNat.toUInt64)
  else Float.ofBits ((e + 1023).toNat.toUInt64 <<< 52)

/-- The double nearest to the length of the hypotenuse; a much shorter leg does not show in it. -/
def hypotenuse (x y : Float) : Float :=
  if x.isInf || y.isInf then infinity
  else if x.isNaN || y.isNaN then notANumber
  else
    let long := if x.abs > y.abs then x.abs else y.abs
    let short := if x.abs > y.abs then y.abs else x.abs
    if short ≤ long * powerOfTwo (-60) then long
    else
      let a := Binary.ofFloat long
      let b := Binary.ofFloat short
      let place := min a.exponent b.exponent
      let m := a.significand <<< (a.exponent - place).toNat
      let n := b.significand <<< (b.exponent - place).toNat
      let square := (m * m + n * n) <<< 128
      let root := square.sqrt
      let sticky := if root * root = square then 2 * root else 2 * root + 1
      Float.ofNat sticky * powerOfTwo (-65) * powerOfTwo place

structure ComplexFloat where
  re : Float
  im : Float

namespace ComplexFloat

def isZero (z : ComplexFloat) : Bool := z.re == 0 && z.im == 0

instance : Mul ComplexFloat :=
  ⟨fun z w => ⟨z.re * w.re - z.im * w.im, z.re * w.im + z.im * w.re⟩⟩

/-- A quotient that divides by the larger part of the divisor first. -/
def divSmith (z w : ComplexFloat) : ComplexFloat :=
  if w.re.abs ≥ w.im.abs then
    let ratio := w.im / w.re
    let denominator := w.re + w.im * ratio
    ⟨(z.re + z.im * ratio) / denominator, (z.im - z.re * ratio) / denominator⟩
  else if w.im.abs ≥ w.re.abs then
    let ratio := w.re / w.im
    let denominator := w.re * ratio + w.im
    ⟨(z.re * ratio + z.im) / denominator, (z.im * ratio - z.re) / denominator⟩
  else ⟨notANumber, notANumber⟩

/-- By zero, each part that is not zero itself is divided alone. -/
instance : Div ComplexFloat :=
  ⟨fun z w =>
    if w.isZero then ⟨quotient z.re 0, if z.im == 0 then 0 else quotient z.im 0⟩ else divSmith z w⟩

/-- The distance from zero, which must not overflow. -/
def modulus (z : ComplexFloat) : Except Fault Float :=
  let r := hypotenuse z.re z.im
  if r.isInf && z.re.isFinite && z.im.isFinite then .error .infiniteModulus else .ok r

/-- The number at a finite distance from zero in a direction. -/
def ofPolar (r angle : Float) : Except Fault ComplexFloat :=
  if angle.isFinite then
    if angle == 0 then .ok ⟨r, r * angle⟩ else .ok ⟨r * angle.cos, r * angle.sin⟩
  else if r == 0 then .ok ⟨0, 0⟩
  else if angle.isNaN then .ok ⟨notANumber, notANumber⟩
  else .error .infiniteAngle

/-- A power of zero by the sign of the exponent's real part. -/
def zeroPow (exponent : ComplexFloat) : ComplexFloat :=
  if exponent.isZero then ⟨1, 0⟩
  else if exponent.re > 0 then ⟨0, 0⟩
  else ⟨infinity, 0⟩

/-- The logarithm of a power whose base is at some distance from zero. -/
def logPow (base exponent : ComplexFloat) (r : Float) : ComplexFloat :=
  let angle := base.im.atan2 base.re
  let logR := r.log
  ⟨exponent.re * logR - exponent.im * angle, exponent.im * logR + exponent.re * angle⟩

/-- A power through logarithm and angle of the base; an infinite result has no direction. -/
def pow (base exponent : ComplexFloat) : Except Fault ComplexFloat :=
  if base.isZero then .ok (zeroPow exponent)
  else do
    let r ← base.modulus
    let l := logPow base exponent r
    let size := l.re.exp
    if size.isFinite then ofPolar size l.im
    else return ⟨size, 0⟩

end ComplexFloat

end UnitSheet
