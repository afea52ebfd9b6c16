import UnitSheet.Bindings
import UnitSheet.Builtin.Apply

/-!
Evaluation of expressions. Assignments write variables, and what is written stays when the
evaluation stops later on.
-/
namespace UnitSheet

/-- Computes a value from the variables and leaves variables behind, also when it stops. -/
abbrev Evaluation (α : Type) := ExceptT Stop (StateM Bindings) α

/-- What an evaluation reads and never writes. -/
structure Scope where
  constants : Bindings := {}
  /-- The parameters of the function whose body is evaluated. -/
  locals : Bindings := {}
  limit : Int

namespace Scope

/-- Parameters hide constants, and constants hide variables. -/
def get? (s : Scope) (assigned : Bindings) (x : String) : Option Value :=
  (s.locals.get? x).or ((s.constants.get? x).or (assigned.get? x))

/-- The scope of a function body: the parameters replace those of the caller. -/
def enter (s : Scope) (params : List String) (args : List Value) : Scope :=
  { s with locals := .ofPairs (params.zip args) }

end Scope

namespace Evaluation

def stop {α : Type} (e : EvalError) : Evaluation α := throw (.eval e)

def lift {α : Type} (r : Except Stop α) : Evaluation α := fun assigned => (r, assigned)

def lookup (s : Scope) (x : String) : Evaluation Value := do
  let assigned ← get
  match s.get? assigned x with
  | some v => return v
  | none => stop (.unknownName x)

def store (x : String) (v : Value) : Evaluation Unit := modify (·.insert x v)

/-- Constants are never assigned to. -/
def assignable (s : Scope) (x : String) : Evaluation Unit :=
  if s.constants.contains x then stop (.assignToConstant x) else pure ()

def element : Value → Evaluation Quantity
  | .scalar q => pure q
  | v => stop (.listElement v.shape)

end Evaluation

def Literal.quantity (l : Literal) : Quantity := ⟨l.value, l.imaginary, l.dimension, l.figures⟩

namespace Expr

open Evaluation

/-- Evaluates with `levels` levels of nesting left; bodies of called functions nest in their
calls. -/
def evalWithin : (levels : Nat) → Scope → Expr → Evaluation Value
  | 0, s, _ => stop (.nestedTooDeep s.limit)
  | levels + 1, s, e =>
    match e with
    | literal l => pure (.scalar l.quantity)
    | name x => lookup s x
    | binary op left right => do
      let v ← evalWithin levels s left
      let w ← evalWithin levels s right
      lift (Value.binary op v w)
    | unary op operand => do
      let v ← evalWithin levels s operand
      lift (Value.unary op v)
    | builtin f args special => do
      let vs ← args.mapM (evalWithin levels s)
      let w ← special.mapM (evalWithin levels s)
      lift (f.apply vs w)
    | call f args => do
      let callee ← lookup s f
      let vs ← args.mapM (evalWithin levels s)
      match callee with
      | .function g params body =>
        if vs.length = params.length then evalWithin levels (s.enter params vs) body
        else stop (.argumentCount g params.length vs.length)
      | factor =>
        match vs with
        | [v] => lift (Value.arithmetic .mul factor v)
        | _ => stop (.notAFunction f)
    | list items => do
      let qs ← items.mapM fun item => evalWithin levels s item >>= element
      return .list qs
    | assign x value => do
      assignable s x
      let v ← evalWithin levels s value
      store x v
      return v
    | define f params body => do
      assignable s f
      store f (.function f params body)
      return .function f params body

/-- The root of an expression is at level zero, and a level beyond the limit stops the evaluation.
The stack of the host is not modelled: where it has too little room for the levels that the limit
allows, the host stops with the same kind of error, that the evaluation is nested too deeply. -/
def eval (e : Expr) (s : Scope) : Evaluation Value := evalWithin (s.limit + 1).toNat s e

end Expr

end UnitSheet
