import UnitSheet.Expr.Operator
import UnitSheet.Unit.Dimension
import UnitSheet.Decimal.Notation

namespace UnitSheet

/-- Pairs of delimiters; the tall ones are written with `\left` and `\right`. -/
inductive Bracket
  | paren | brace | square | tallParen | tallSquare | tallBar
deriving DecidableEq

/-- What keeps a piece of text from being a token. -/
inductive Malformed
  | identifier | numeric | unknown
deriving DecidableEq

namespace Token

inductive Kind
  | number
  | name
  | operator (op : BinaryOp)
  | factorial
  | equal
  | comma
  | subscript
  | opening (b : Bracket)
  | closing (b : Bracket)
  | bar
  | fraction
  | builtin (f : Builtin)
  | malformed (m : Malformed)
  | done
deriving DecidableEq

end Token

namespace Bracket

def all : List Bracket := [paren, brace, square, tallParen, tallSquare, tallBar]

def openingName : Bracket → String
  | paren => "lparen" | brace => "lbrace" | square => "lbracket"
  | tallParen => "left_paren" | tallSquare => "left_bracket" | tallBar => "left_pipe"

def closingName : Bracket → String
  | paren => "rparen" | brace => "rbrace" | square => "rbracket"
  | tallParen => "right_paren" | tallSquare => "right_bracket" | tallBar => "right_pipe"

end Bracket

namespace Malformed

def all : List Malformed := [identifier, numeric, unknown]

def name : Malformed → String
  | identifier => "bad_identifier" | numeric => "bad_numeric" | unknown => "unknown"

def description : Malformed → String
  | identifier => "Malformed identifier"
  | numeric => "Malformed number"
  | unknown => "Unrecognised input"

end Malformed

namespace BinaryOp

def all : List BinaryOp :=
  [.arithmetic .add, .arithmetic .sub, .arithmetic .mul, .arithmetic .div, .arithmetic .pow] ++
    Comparison.all.map .comparison

def kindName : BinaryOp → String
  | .arithmetic .add => "plus"
  | .arithmetic .sub => "minus"
  | .arithmetic .mul => "times"
  | .arithmetic .div => "divide"
  | .arithmetic .pow => "power"
  | .comparison .lt => "lt"
  | .comparison .gt => "gt"
  | .comparison .le => "le"
  | .comparison .ge => "ge"
  | .comparison .ne => "ne"

end BinaryOp

namespace Builtin

def kindName : Builtin → String
  | choose => "ncr"
  | permute => "npr"
  | f => f.name

end Builtin

namespace Token.Kind

/-- The name under which messages and listings show a kind. -/
def text : Kind → String
  | number => "number"
  | name => "ident"
  | operator op => op.kindName
  | factorial => "factorial"
  | equal => "equal"
  | comma => "comma"
  | subscript => "subscript"
  | opening b => b.openingName
  | closing b => b.closingName
  | bar => "pipe"
  | fraction => "frac"
  | builtin f => f.kindName
  | malformed m => m.name
  | done => "eof"

def all : List Kind :=
  [number, name, factorial, equal, comma, subscript, bar, fraction, done] ++
    BinaryOp.all.map operator ++ Bracket.all.map opening ++ Bracket.all.map closing ++
    Builtin.all.map builtin ++ Malformed.all.map malformed

def ofText? (text : String) : Option Kind := all.find? (·.text = text)

end Token.Kind

/-- A piece of source text; a token of the lexer has its offset in the source as position. -/
structure Token where
  kind : Token.Kind
  text : String
  pos : Int
  value : Float := 0
  dimension : Dimension := .none
  figures : Nat := 0

namespace Token

def malformed? (t : Token) : Option Malformed :=
  match t.kind with
  | .malformed m => some m
  | _ => none

/-- One line about a token; only a number shows its value. -/
def describe (t : Token) : String :=
  let head := s!"Token({t.kind.text}, {Text.quoted t.text}, pos={t.pos}"
  if t.kind = .number then s!"{head}, value={shortestText t.value})" else s!"{head})"

/-- Source text that is cut into the same tokens again. -/
def render (ts : List Token) : String :=
  " ".intercalate ((ts.filter (·.kind ≠ .done)).map (·.text))

end Token

end UnitSheet
