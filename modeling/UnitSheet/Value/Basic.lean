import UnitSheet.Quantity.Basic
import UnitSheet.Expr.Basic
import UnitSheet.Failure

namespace UnitSheet

inductive Value
  | scalar (q : Quantity)
  | list (qs : List Quantity)
  | boolean (b : Bool)
  | function (f : String) (params : List String) (body : Expr)

namespace Value

def shape : Value → Shape
  | scalar _ => .scalar
  | list _ => .list
  | boolean _ => .boolean
  | function _ _ _ => .function

/-- The first element stands for a list; an empty one counts as zero. -/
def representative (qs : List Quantity) : Quantity := qs.headD ⟨0, 0, .none, 0⟩

def render : Value → String
  | scalar q => q.render
  | list qs =>
    let items := ", ".intercalate (qs.map Quantity.render)
    s!"[{items}]"
  | boolean b => if b then "true" else "false"
  | function f params _ =>
    let names := ", ".intercalate params
    s!"{f}({names})"

def exact : Value → Value
  | scalar q => .scalar q.exact
  | list qs => .list (qs.map Quantity.exact)
  | v => v

/-- The quantity that a value stands for where one number is needed. -/
def quantity (role : String) : Value → Except Stop Quantity
  | scalar q => .ok q
  | list qs => .ok (representative qs)
  | v => .error (.eval (.notANumber role v.shape))

end Value

end UnitSheet
