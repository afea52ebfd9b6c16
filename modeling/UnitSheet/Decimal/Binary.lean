namespace UnitSheet

/-- The double `±significand · 2 ^ exponent`. -/
structure Binary where
  negative : Bool
  significand : Nat
  exponent : Int

namespace Binary

/-- The leading bit of the significand of a normal number, `2 ^ 52`. -/
def leadingBit : Nat := 4503599627370496

/-- The fields of a finite bit pattern; subnormals share the exponent of the least normal number. -/
def ofBits (bits : Nat) : Binary :=
  let fraction : Nat := bits % leadingBit
  let field : Nat := bits / leadingBit % 2048
  let negative := bits / leadingBit / 2048 = 1
  if field = 0 then ⟨negative, fraction, -1074⟩
  else ⟨negative, fraction + leadingBit, (field : Int) - 1075⟩

def ofFloat (x : Float) : Binary := ofBits x.toBits.toNat

def magnitude (b : Binary) : Rat := b.significand * (2 : Rat) ^ b.exponent

/-- Below a power of two the neighbouring double is half as far as above it. -/
def atPowerOfTwo (b : Binary) : Bool := b.significand = leadingBit && b.exponent > -1074

/-- The least real that rounds to the magnitude, if the end itself is included. -/
def lowerEnd (b : Binary) : Rat :=
  (4 * b.significand - if b.atPowerOfTwo then 1 else 2) * (2 : Rat) ^ (b.exponent - 2)

/-- The greatest real that rounds to the magnitude, if the end itself is included. -/
def upperEnd (b : Binary) : Rat := (4 * b.significand + 2) * (2 : Rat) ^ (b.exponent - 2)

/-- Whether a positive real rounds to the magnitude; the ends go to the even significand. -/
def Contains (b : Binary) (x : Rat) : Prop :=
  if b.significand % 2 = 0 then b.lowerEnd ≤ x ∧ x ≤ b.upperEnd
  else b.lowerEnd < x ∧ x < b.upperEnd

instance (b : Binary) (x : Rat) : Decidable (b.Contains x) := by
  unfold Contains; infer_instance

end Binary

/-- The sign bit, which also tells `-0` from `0`. -/
def signBit (x : Float) : Bool := (Binary.ofFloat x).negative

/-- The magnitude of `x` with the sign of `y`. -/
def withSign (x y : Float) : Float := if signBit y then -x.abs else x.abs

/-- A finite double without its fraction. -/
def truncate (x : Float) : Int :=
  let b := Binary.ofFloat x
  if b.negative then -b.magnitude.floor else b.magnitude.floor

def infinity : Float := Float.ofBits 0x7ff0000000000000

def notANumber : Float := Float.ofBits 0x7ff8000000000000

end UnitSheet
