import UnitSheet.Builtin.Kernel
import UnitSheet.Value.Arithmetic

namespace UnitSheet.Builtin

/-- A real function of quantities; the result is a plain number. -/
def ofReal (f : Float → Float) (q : Quantity) : Quantity := ⟨f q.value, 0, .none, q.figures⟩

/-- The complex function where there is an imaginary part; no value is not a number. -/
def ofComplex (f : Float → Float) (g? : ComplexFloat → Option ComplexFloat) (q : Quantity) :
    Quantity :=
  if q.isComplex then
    match g? q.toComplex with
    | some z => ⟨z.re, z.im, .none, q.figures⟩
    | none => ⟨notANumber, 0, .none, q.figures⟩
  else ofReal f q

def reciprocal (f : Float → Float) (x : Float) : Float := quotient 1 (f x)

def keepingUnit (f : Float → Float) (q : Quantity) :
    Quantity := ⟨f q.value, 0, q.dimension, q.figures⟩

/-- The functions of one quantity that need no other operand. -/
def pointwise? : Builtin → Option (Quantity → Quantity)
  | ln => some (ofComplex Kernel.ln (some ·.log))
  | sin => some (ofComplex Float.sin ComplexFloat.sin?)
  | cos => some (ofComplex Float.cos ComplexFloat.cos?)
  | tan => some (ofComplex Float.tan ComplexFloat.tan?)
  | sec => some (ofReal (reciprocal Float.cos))
  | csc => some (ofReal (reciprocal Float.sin))
  | cot => some (ofReal (reciprocal Float.tan))
  | arcsin => some (ofReal Float.asin)
  | arccos => some (ofReal Float.acos)
  | arctan => some (ofReal Float.atan)
  | arcsec => some (ofReal (Kernel.ofReciprocal Float.acos))
  | arccsc => some (ofReal (Kernel.ofReciprocal Float.asin))
  | arccot => some (ofReal Kernel.arccot)
  | ceil => some (keepingUnit Kernel.ceil)
  | floor => some (keepingUnit Kernel.floor)
  | _ => none

/-- A function of two quantities by their real parts; the result is an exact plain number. -/
def ofReals (f : Float → Float → Float) (a b : Quantity) : Except Fault Quantity :=
  .ok ⟨f a.value b.value, 0, .none, 0⟩

/-- The index of a root, which is two where none is given. -/
def rootIndex : Option Value → Except Stop Float
  | some w => (·.value) <$> w.quantity "Root index"
  | none => .ok 2

/-- The power by the reciprocal of the index. -/
def root (v : Value) (index : Option Value) : Except Stop Value := do
  let n ← rootIndex index
  Value.arithmetic .pow v (.scalar ⟨quotient 1 n, 0, .none, 0⟩)

def logarithm (v : Value) (base : Option Value) : Except Stop Value := do
  let b ← match base with
    | some w => (some ·.value) <$> w.quantity "Log base"
    | none => pure none
  v.map (ofReal (Kernel.log · b)) "log"

def rounded (v places : Value) : Except Stop Value := do
  let p ← places.quantity "Decimal places"
  v.map (keepingUnit (Kernel.roundHalfAway · p.value)) "round"

def applyOne (f : Builtin) (v : Value) (special : Option Value) : Except Stop Value :=
  match f.pointwise? with
  | some g => v.map g f.name
  | none =>
    match f with
    | abs => v.absolute
    | fact => v.factorial
    | sqrt => root v special
    | _ => logarithm v special

def applyTwo (f : Builtin) (v w : Value) : Except Stop Value :=
  match f with
  | round => rounded v w
  | choose => Value.broadcast (ofReals Kernel.choose) f.name v w
  | _ => Value.broadcast (ofReals Kernel.permute) f.name v w

/-- A call with as many arguments as the function takes. -/
def apply (f : Builtin) (args : List Value) (special : Option Value) : Except Stop Value :=
  let refused := .error (.eval (.argumentCount ("\\" ++ f.name) f.arity args.length))
  match f.arity, args with
  | 1, [v] => applyOne f v special
  | 2, [v, w] => applyTwo f v w
  | _, _ => refused

end UnitSheet.Builtin
