import UnitSheet.Decimal.Digits

namespace UnitSheet

/-- Where positional notation ends and whether a whole number shows its fraction. -/
structure Notation where
  positionalBelow : Int
  showsFraction : Bool

namespace Notation

/-- Positional below `10 ^ 16`, with `.0` on a whole number. -/
def exact : Notation := ⟨16, true⟩

/-- Positional while the digits asked for reach the units. -/
def general (digits : Nat) : Notation := ⟨digits, false⟩

def zeros (n : Nat) : List Char := List.replicate n '0'

/-- At least two digits and always a sign. -/
def exponent (e : Int) : List Char :=
  let digits := Nat.toDigits 10 e.natAbs
  (if e < 0 then '-' else '+') :: (zeros (2 - digits.length) ++ digits)

/-- Digits without trailing zeros; zero keeps its one digit. -/
def significant (coefficient : Nat) : List Char :=
  match (Nat.toDigits 10 coefficient).reverse.dropWhile (· = '0') with
  | [] => ['0']
  | ds => ds.reverse

/-- Digits whose first one has the weight `10 ^ lead`. -/
def layout (n : Notation) (digits : List Char) (lead : Int) : List Char :=
  if lead < -4 ∨ n.positionalBelow ≤ lead then
    match digits with
    | d :: [] => d :: 'e' :: exponent lead
    | d :: ds => d :: '.' :: (ds ++ 'e' :: exponent lead)
    | [] => []
  else if lead < 0 then '0' :: '.' :: (zeros (lead.natAbs - 1) ++ digits)
  else
    let whole := lead.toNat + 1
    if digits.length ≤ whole then
      digits ++ zeros (whole - digits.length) ++ if n.showsFraction then ['.', '0'] else []
    else digits.take whole ++ '.' :: digits.drop whole

def writeScaled (n : Notation) (s : Scaled) : List Char :=
  let length := (Nat.toDigits 10 s.coefficient).length
  n.layout (significant s.coefficient) (s.place + length - 1)

/-- Nothing but the sign and the digits of a finite double depends on how they are chosen. -/
def write (n : Notation) (choose : Binary → Scaled) (x : Float) : String :=
  if x.isNaN then "nan"
  else
    let b := Binary.ofFloat x
    let sign := if b.negative then ['-'] else []
    if x.isInf then String.ofList (sign ++ ['i', 'n', 'f'])
    else
      let s := if b.significand = 0 then ⟨0, 0⟩ else choose b
      String.ofList (sign ++ n.writeScaled s)

end Notation

/-- The fewest digits that are read back as the same double. -/
def shortestText (x : Float) : String := Notation.exact.write Scaled.shortest x

/-- At most `digits` significant digits. -/
def roundedText (digits : Nat) (x : Float) : String :=
  (Notation.general digits).write (fun b => Scaled.rounded digits b.magnitude) x

end UnitSheet
