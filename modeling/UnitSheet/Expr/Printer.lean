import UnitSheet.Expr.Basic
import UnitSheet.Decimal.Notation

namespace UnitSheet

/-- A literal without source text is shown with six digits. -/
def Literal.render (l : Literal) :
    String := if l.text.isEmpty then roundedText 6 l.value else l.text

namespace Expr

mutual

def render : Expr → String
  | literal l => l.render
  | name x => x
  | binary op left right => s!"({left.render} {op.symbol} {right.render})"
  | unary .factorial operand => s!"({operand.render})!"
  | unary op operand => op.symbol ++ operand.render
  | builtin f args none => s!"{f.name}({renderAll args})"
  | builtin f args (some special) => s!"{f.name}[{special.render}]({renderAll args})"
  | call f args => s!"{f}({renderAll args})"
  | list items => s!"[{renderAll items}]"
  | assign x value => s!"{x} = {value.render}"
  | define f params body =>
    let names := ", ".intercalate params
    s!"{f}({names}) = {body.render}"

def renderAll : List Expr → String
  | [] => ""
  | [e] => e.render
  | e :: es => e.render ++ ", " ++ renderAll es

end

end Expr

end UnitSheet
