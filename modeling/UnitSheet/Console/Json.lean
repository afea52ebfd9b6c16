import UnitSheet.Decimal.Notation

namespace UnitSheet.Console

inductive Json
  | null
  | boolean (b : Bool)
  | integer (n : Int)
  | float (x : Float)
  | text (s : String)
  | array (items : List Json)
  | object (fields : List (String × Json))

namespace Json

def escape (c : Char) : List Char :=
  match c with
  | '"' => ['\\', '"']
  | '\\' => ['\\', '\\']
  | '\n' => ['\\', 'n']
  | '\r' => ['\\', 'r']
  | '\t' => ['\\', 't']
  | '\x08' => ['\\', 'b']
  | '\x0c' => ['\\', 'f']
  | c =>
    if c.toNat < 32 then
      let digits := Nat.toDigits 16 c.toNat
      '\\' :: 'u' :: (List.replicate (4 - digits.length) '0' ++ digits)
    else [c]

def quoted (s : String) : String := String.ofList ('"' :: (s.toList.flatMap escape ++ ['"']))

/-- Numbers that JSON has no form for are written as texts. -/
def number (x : Float) : Json := if x.isFinite then .float x else .text (shortestText x)

def indent (depth : Nat) : String := "".pushn ' ' (2 * depth)

/-- Items on lines of their own between two brackets. -/
def block (opening closing : String) (depth : Nat) (items : List String) : String :=
  if items.isEmpty then opening ++ closing
  else
    let body := ",\n".intercalate (items.map (indent (depth + 1) ++ ·))
    opening ++ "\n" ++ body ++ "\n" ++ indent depth ++ closing

mutual

def writeAt (depth : Nat) : Json → String
  | null => "null"
  | boolean b => if b then "true" else "false"
  | integer n => toString n
  | float x => shortestText x
  | text s => quoted s
  | array items => block "[" "]" depth (writeItems depth items)
  | object fields => block "\x7b" "\x7d" depth (writeFields depth fields)

def writeItems (depth : Nat) : List Json → List String
  | [] => []
  | j :: js => writeAt (depth + 1) j :: writeItems depth js

def writeFields (depth : Nat) : List (String × Json) → List String
  | [] => []
  | (key, j) :: fields => (quoted key ++ ": " ++ writeAt (depth + 1) j) :: writeFields depth fields

end

def write (j : Json) : String := writeAt 0 j

end Json

end UnitSheet.Console
