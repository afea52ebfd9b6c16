import UnitSheet.Decimal.Binary

/-!
Decimal digits of a positive rational: rounded to a number of digits, or the fewest that a double
is read back from.
-/
namespace UnitSheet

/-- The decimal `coefficient · 10 ^ place`. -/
structure Scaled where
  coefficient : Nat
  place : Int
deriving DecidableEq

namespace Scaled

def toRat (s : Scaled) : Rat := s.coefficient * (10 : Rat) ^ s.place

/-- The exponent of the first digit: `10 ^ decade v ≤ v < 10 ^ (decade v + 1)` for `0 < v`. -/
def decade (v : Rat) : Int :=
  if 1 ≤ v then (Nat.toDigits 10 v.floor.toNat).length - 1
  else
    let k : Int := (Nat.toDigits 10 v⁻¹.floor.toNat).length
    if (10 : Rat) ^ (1 - k) ≤ v then 1 - k else -k

def roundHalfEven (v : Rat) : Nat :=
  let n := v.floor.toNat
  let rest := v - n
  if rest < 1 / 2 ∨ rest = 1 / 2 ∧ n % 2 = 0 then n else n + 1

/-- The nearest decimal with `n` significant digits; a tie goes to the even last digit. -/
def rounded (n : Nat) (v : Rat) : Scaled :=
  let place := decade v + 1 - n
  ⟨roundHalfEven (v / (10 : Rat) ^ place), place⟩

/-- Of the two multiples of `10 ^ place` around the magnitude, the nearer that is read back as
it. -/
def neighbour? (b : Binary) (place : Int) : Option Scaled :=
  let v := b.magnitude
  let low := (v / (10 : Rat) ^ place).floor.toNat
  let below : Scaled := ⟨low, place⟩
  let above : Scaled := ⟨low + 1, place⟩
  match decide (b.Contains below.toRat), decide (b.Contains above.toRat) with
  | true, true => some ⟨roundHalfEven (v / (10 : Rat) ^ place), place⟩
  | true, false => some below
  | false, true => some above
  | false, false => none

/-- Grids from coarse to fine; seventeen digits tell any two doubles apart. -/
def shortest (b : Binary) : Scaled :=
  let d := decade b.magnitude
  let grids := (List.range 16).map fun (k : Nat) => d - k
  (grids.findSome? (neighbour? b)).getD (rounded 17 b.magnitude)

end Scaled

end UnitSheet
