import UnitSheet.Expr.Operator
import UnitSheet.Unit.Dimension

namespace UnitSheet

/-- A number in an expression, with the source text it came from. -/
structure Literal where
  value : Float
  imaginary : Float := 0
  dimension : Dimension := .none
  figures : Nat := 0
  text : String := ""

inductive Expr
  | literal (l : Literal)
  | name (x : String)
  | binary (op : BinaryOp) (left right : Expr)
  | unary (op : UnaryOp) (operand : Expr)
  /-- The special operand is the base of a logarithm or the index of a root. -/
  | builtin (f : Builtin) (args : List Expr) (special : Option Expr)
  /-- A call of a function, or a product when `f` turns out to be a number. -/
  | call (f : String) (args : List Expr)
  | list (items : List Expr)
  | assign (target : String) (value : Expr)
  | define (f : String) (params : List String) (body : Expr)

namespace Expr

def mul (left right : Expr) : Expr := .binary (.arithmetic .mul) left right

def pow (base exponent : Expr) : Expr := .binary (.arithmetic .pow) base exponent

def children : Expr → List Expr
  | literal _ | name _ => []
  | binary _ left right => [left, right]
  | unary _ operand => [operand]
  | builtin _ args special => args ++ special.toList
  | call _ args => args
  | list items => items
  | assign _ value => [value]
  | define _ _ body => [body]

mutual

def size : Expr → Nat
  | literal _ | name _ => 1
  | binary _ left right => left.size + right.size + 1
  | unary _ operand => operand.size + 1
  | builtin _ args none => sizeAll args + 1
  | builtin _ args (some special) => sizeAll args + special.size + 1
  | call _ args => sizeAll args + 1
  | list items => sizeAll items + 1
  | assign _ value => value.size + 1
  | define _ _ body => body.size + 1

def sizeAll : List Expr → Nat
  | [] => 0
  | e :: es => e.size + sizeAll es

end

def target? : Expr → Option String
  | assign x _ => some x
  | define f _ _ => some f
  | _ => none

end Expr

end UnitSheet
