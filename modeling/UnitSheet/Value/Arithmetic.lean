import UnitSheet.Value.Basic
import UnitSheet.Quantity.Arithmetic

/-!
Arithmetic between values: quantity by quantity where a list takes part, and then on real parts.
-/
namespace UnitSheet

def orFault {α : Type} : Except Fault α → Except Stop α := Except.mapError .fault

namespace Value

/-- The lists of a broadcast combine up to the end of the shorter one. -/
def broadcast (f : Quantity → Quantity → Except Fault Quantity) (symbol : String) :
    Value → Value → Except Stop Value
  | scalar a, scalar b => orFault (scalar <$> f a b)
  | scalar a, list bs => orFault (list <$> bs.mapM fun b => f a.real b.real)
  | list as, scalar b => orFault (list <$> as.mapM fun a => f a.real b.real)
  | list as, list bs => orFault (list <$> (as.zip bs).mapM fun (a, b) => f a.real b.real)
  | v, w => .error (.eval (.operands symbol v.shape w.shape))

def arithmetic (op : Arithmetic) : Value → Value → Except Stop Value :=
  broadcast (Quantity.arithmetic op) op.symbol

/-- Applies a function to a quantity or to each element of a list. -/
def map (f : Quantity → Quantity) (operation : String) : Value → Except Stop Value
  | scalar q => .ok (scalar (f q))
  | list qs => .ok (list (qs.map f))
  | v => .error (.eval (.operand operation v.shape))

def negate : Value → Except Stop Value := map Quantity.negate "negation"

/-- Magnitudes; truth counts as one and falsehood as zero. -/
def absolute : Value → Except Stop Value
  | boolean b => .ok (scalar ⟨if b then 1 else 0, 0, .none, 0⟩)
  | v => map Quantity.absolute "abs" v

def factorial : Value → Except Stop Value := map Quantity.factorial "factorial"

/-- Numbers compare by their real parts; truth values only for being different. -/
def compare (op : Comparison) : Value → Value → Except Stop Value
  | scalar a, scalar b => .ok (boolean (Quantity.compare op a.value b.value))
  | boolean a, boolean b =>
    if op = .ne then .ok (boolean (a != b)) else .error
      (.eval (.operands op.symbol .boolean .boolean))
  | v, w => .error (.eval (.operands op.symbol v.shape w.shape))

def compareBy (symbol : String) (v w : Value) : Except Stop Value :=
  match Comparison.ofSymbol? symbol with
  | some op => compare op v w
  | none => .error (.eval (.unknownComparison symbol))

def binary : BinaryOp → Value → Value → Except Stop Value
  | .arithmetic op => arithmetic op
  | .comparison op => compare op

def unary : UnaryOp → Value → Except Stop Value
  | .neg, v => negate v
  | .factorial, v => factorial v
  | .pos, scalar q => .ok (scalar q)
  | .pos, list qs => .ok (list qs)
  | .pos, v => .error (.eval (.unaryPlus v.shape))

end Value

end UnitSheet
