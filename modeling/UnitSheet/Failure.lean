import UnitSheet.Token.Basic

namespace UnitSheet

/-- A place in a source text. -/
structure Place where
  source : String
  pos : Int

namespace Place

/-- The offset inside the source nearest to the position. -/
def offset (p : Place) : Nat := min p.pos.toNat p.source.length

/-- The source and a caret under the place. -/
def render (p : Place) : String :=
  let indent := "".pushn ' ' p.offset
  s!"  {p.source}\n  {indent}^"

end Place

structure LexicalError where
  cause : Malformed
  text : String
  place : Place

namespace LexicalError

def message (e : LexicalError) : String := s!"{e.cause.description}: {Text.quoted e.text}"

end LexicalError

inductive ParseError.Cause
  | missingEnd
  | empty
  | trailing (text : String)
  | nestedTooDeep (limit : Int)
  | expected (wanted found : Token.Kind) (text : String)
  | unexpectedEnd
  | unexpected (kind : Token.Kind) (text : String)
  | expectedBrace (text : String)
  | argumentCount (f : Builtin) (count : Nat)
  | argumentsNotInParentheses (f : Builtin)
  | missingArgument (f : Builtin)
  | expectedLogBase
  | duplicateParameter (function : String)
  | cannotAssign (target : String)
deriving DecidableEq

namespace ParseError.Cause

def message : Cause → String
  | missingEnd => "Token list must end with EOF"
  | empty => "Empty expression"
  | trailing text => s!"Unexpected token after expression: {Text.quoted text}"
  | nestedTooDeep limit => s!"Expression nested deeper than {limit} levels"
  | expected wanted found text => s!"Expected {wanted.text}, got {found.text} ({Text.quoted text})"
  | unexpectedEnd => "Unexpected end of expression"
  | unexpected kind text => s!"Unexpected token: {kind.text} ({Text.quoted text})"
  | expectedBrace text => s!"Expected '\x7b', got {Text.quoted text}"
  | argumentCount f count => s!"\\{f.name} takes {f.arity} argument(s), got {count}"
  | argumentsNotInParentheses f => s!"\\{f.name} requires parenthesised arguments"
  | missingArgument f => s!"Missing argument for \\{f.name}"
  | expectedLogBase => "Expected a numeral or '\x7b' after \\log_"
  | duplicateParameter function => s!"Duplicate parameter in definition of {function}"
  | cannotAssign target => s!"Cannot assign to {target}"

end ParseError.Cause

/-- Tokens that come without a source leave no place to show. -/
structure ParseError where
  cause : ParseError.Cause
  pos : Int
  source : Option String

namespace ParseError

def message (e : ParseError) : String := e.cause.message

end ParseError

/-- The kinds of value that an operation may find unsuitable. -/
inductive Shape
  | scalar | list | boolean | function
deriving DecidableEq

namespace Shape

def name : Shape → String
  | scalar => "Scalar" | list => "ValueList" | boolean => "Boolean" | function => "Function"

end Shape

inductive EvalError
  | nestedTooDeep (limit : Int)
  | unknownName (name : String)
  | assignToConstant (name : String)
  | argumentCount (function : String) (wanted count : Nat)
  | notAFunction (name : String)
  | operands (symbol : String) (left right : Shape)
  | operand (operation : String) (shape : Shape)
  | unaryPlus (shape : Shape)
  | notANumber (role : String) (shape : Shape)
  | listElement (shape : Shape)
  | unknownComparison (symbol : String)
  | conversionUnit (text : String)
deriving DecidableEq

namespace EvalError

def message : EvalError → String
  | nestedTooDeep limit => s!"Evaluation nested deeper than {limit} levels"
  | unknownName name => s!"Unknown identifier: {name}"
  | assignToConstant name => s!"Cannot assign to constant {name}"
  | argumentCount function wanted count => s!"{function} takes {wanted} argument(s), got {count}"
  | notAFunction name => s!"{name} is not a function"
  | operands symbol left right =>
    s!"Unsupported operands for {symbol}: {left.name} and {right.name}"
  | operand operation shape => s!"Unsupported operand for {operation}: {shape.name}"
  | unaryPlus shape => s!"Unsupported operand for unary +: {shape.name}"
  | notANumber role shape => s!"{role} must be a number, got {shape.name}"
  | listElement shape => s!"List elements must be numbers, got {shape.name}"
  | unknownComparison symbol => s!"Unknown comparison operator: {symbol}"
  | conversionUnit text => s!"Invalid conversion unit: {text}"

end EvalError

/-- An error that belongs to one expression. -/
inductive Failure
  | lexical (e : LexicalError)
  | parse (e : ParseError)
  | eval (e : EvalError)

namespace Failure

def message : Failure → String
  | lexical e => e.message
  | parse e => e.message
  | eval e => e.message

def place? : Failure → Option Place
  | lexical e => some e.place
  | parse e => e.source.map fun source => ⟨source, e.pos⟩
  | eval _ => none

/-- The message, and below it the source with a caret where there is one. -/
def report (f : Failure) : String :=
  match f.place? with
  | some place => s!"{f.message}\n{place.render}"
  | none => f.message

end Failure

/-- A computation stops with an error of its expression or with a breakdown that ends the
request. -/
inductive Stop
  | failure (f : Failure)
  | fault (f : Fault)

namespace Stop

def eval (e : EvalError) : Stop := .failure (.eval e)

end Stop

end UnitSheet
