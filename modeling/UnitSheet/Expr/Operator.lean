namespace UnitSheet

inductive Arithmetic
  | add | sub | mul | div | pow
deriving DecidableEq

inductive Comparison
  | lt | gt | le | ge | ne
deriving DecidableEq

inductive BinaryOp
  | arithmetic (op : Arithmetic)
  | comparison (op : Comparison)
deriving DecidableEq

inductive UnaryOp
  | neg | pos | factorial
deriving DecidableEq

inductive Builtin
  | sin | cos | tan | sec | csc | cot
  | arcsin | arccos | arctan | arcsec | arccsc | arccot
  | ln | log | sqrt
  | abs | floor | ceil | round | fact | choose | permute
deriving DecidableEq

namespace Arithmetic

def symbol : Arithmetic → String
  | add => "+" | sub => "-" | mul => "*" | div => "/" | pow => "^"

end Arithmetic

namespace Comparison

def all : List Comparison := [lt, gt, le, ge, ne]

def symbol : Comparison → String
  | lt => "<" | gt => ">" | le => "<=" | ge => ">=" | ne => "!="

def ofSymbol? (text : String) : Option Comparison := all.find? (·.symbol = text)

end Comparison

namespace BinaryOp

def symbol : BinaryOp → String
  | arithmetic op => op.symbol
  | comparison op => op.symbol

end BinaryOp

namespace UnaryOp

def symbol : UnaryOp → String
  | neg => "-" | pos => "+" | factorial => "!"

end UnaryOp

namespace Builtin

def all : List Builtin :=
  [sin, cos, tan, sec, csc, cot, arcsin, arccos, arctan, arcsec, arccsc, arccot, ln, log, sqrt, abs,
   floor, ceil, round, fact, choose, permute]

/-- The command that calls the function, without its backslash. -/
def name : Builtin → String
  | sin => "sin" | cos => "cos" | tan => "tan" | sec => "sec" | csc => "csc" | cot => "cot"
  | arcsin => "arcsin" | arccos => "arccos" | arctan => "arctan"
  | arcsec => "arcsec" | arccsc => "arccsc" | arccot => "arccot"
  | ln => "ln" | log => "log" | sqrt => "sqrt"
  | abs => "abs" | floor => "floor" | ceil => "ceil" | round => "round" | fact => "fact"
  | choose => "nCr" | permute => "nPr"

def ofName? (text : String) : Option Builtin := all.find? (·.name = text)

/-- The number of arguments in parentheses. -/
def arity : Builtin → Nat
  | choose | permute | round => 2
  | _ => 1

end Builtin

end UnitSheet
