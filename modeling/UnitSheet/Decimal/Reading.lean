import UnitSheet.Decimal.Binary

namespace UnitSheet.Decimal

/-- The value of a run of digits, first digit first. -/
def natOfDigits (digits : List Nat) : Nat := digits.foldl (fun n d => 10 * n + d) 0

/-- The double nearest to `mantissa · 10 ^ exponent`; far outside the range of doubles the power of
ten is not computed. -/
def toFloat (mantissa : Nat) (exponent : Int) : Float :=
  if mantissa = 0 then 0
  else
    let lead : Int := (Nat.toDigits 10 mantissa).length + exponent
    if lead > 400 then infinity
    else if lead < -400 then 0
    else Float.ofScientific mantissa (exponent < 0) exponent.natAbs

def digit? (c : Char) : Option Nat := if c.isDigit then some (c.toNat - '0'.toNat) else none

/-- The longest run of digits at the front, and the rest. -/
def spanDigits : List Char → List Nat × List Char
  | [] => ([], [])
  | c :: cs =>
    match digit? c with
    | some d => let (ds, rest) := spanDigits cs; (d :: ds, rest)
    | none => ([], c :: cs)

def spanSign : List Char → Bool × List Char
  | '-' :: cs => (true, cs)
  | '+' :: cs => (false, cs)
  | cs => (false, cs)

/-- The exponent after a mantissa: nothing, or `e` and a whole number that ends the text. -/
def exponent? : List Char → Option Int
  | [] => some 0
  | e :: cs =>
    if e = 'e' ∨ e = 'E' then
      let (negative, cs) := spanSign cs
      match spanDigits cs with
      | ([], _) => none
      | (ds, []) => some (if negative then -natOfDigits ds else natOfDigits ds)
      | _ => none
    else none

def unsigned? (cs : List Char) : Option Float :=
  let (whole, cs) := spanDigits cs
  let (fraction, cs) := match cs with
    | '.' :: cs => spanDigits cs
    | cs => ([], cs)
  if whole.isEmpty && fraction.isEmpty then none
  else (exponent? cs).map fun e => toFloat (natOfDigits (whole ++ fraction)) (e - fraction.length)

/-- Reads an optional sign and a decimal, `inf` or `nan`. -/
def read? (text : String) : Option Float :=
  let (negative, cs) := spanSign text.toList
  let magnitude := match cs with
    | ['i', 'n', 'f'] => some infinity
    | ['n', 'a', 'n'] => some notANumber
    | cs => unsigned? cs
  magnitude.map fun x => if negative then -x else x

end UnitSheet.Decimal
