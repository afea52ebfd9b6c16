import UnitSheet.Expr.Printer
import UnitSheet.Token.Lexer
import UnitSheet.Token.Name

/-!
Expressions from tokens, by binding power:

* `=` has left power 2 and groups to the right;
* comparisons have 5, sums 10, products 20 (written or implied), and group to the left;
* `^` has 31 and groups to the right;
* a sign takes an operand of power 15, a bare argument of a function one of power 19.

The parser keeps the tokens that remain, without the end of the source.
-/
namespace UnitSheet

namespace BinaryOp

/-- The left binding power; the right operand binds one tighter. -/
def power : BinaryOp → Nat
  | comparison _ => 5
  | arithmetic .add | arithmetic .sub => 10
  | arithmetic .mul | arithmetic .div => 20
  | arithmetic .pow => 31

end BinaryOp

namespace Token

def sign? (t : Token) : Option UnaryOp :=
  match t.kind with
  | .operator (.arithmetic .add) => some .pos
  | .operator (.arithmetic .sub) => some .neg
  | _ => none

/-- A run of digits, which an exponent and a logarithm's base take one digit of. -/
def isDigitRun (t : Token) : Bool :=
  t.kind = .number && t.text.length > 1 && t.text.toList.all Text.isDigit

def literal (t : Token) : Literal where
  value := t.value
  dimension := t.dimension
  figures := t.figures
  text := t.text

/-- The first digit of a run, and the token that is left of it. -/
def splitDigit (t : Token) : Except Fault (Literal × Token) :=
  let head := t.text.toList.take 1
  let tail := t.text.toList.drop 1
  do
    let rest ← numeralValue tail
    let first ← numeralValue head
    return ({ value := first, text := String.ofList head },
      { kind := .number, text := String.ofList tail, pos := t.pos + 1, value := rest })

end Token

namespace Token.Kind

/-- Whether the token ends an expression without belonging to it. -/
def isTerminator : Kind → Bool
  | closing _ | comma | done => true
  | _ => false

/-- Whether the token starts an operand; a bar inside bars ends one instead. -/
def startsOperand (bars : Nat) : Kind → Bool
  | number | name | opening _ | fraction | builtin _ => true
  | bar => bars = 0
  | _ => false

def isBuiltin : Kind → Bool
  | builtin _ => true
  | _ => false

end Token.Kind

namespace Parser

/-- What stays the same while tokens are read: the end token is last in view, never taken. -/
structure Context where
  source : String
  limit : Int
  done : Token

/-- Reads a value from the front of the tokens. -/
abbrev Reader (α : Type) := List Token → Except Stop (α × List Token)

/-- The readers one level deeper: an expression of at least some power, inside some open bars, maybe
ended by a function; and an exponent inside some open bars. -/
structure Level where
  expression : (power bars : Nat) → (bare : Bool) → Reader Expr
  exponent : (bars : Nat) → Reader Expr

variable (c : Context)

def current (ts : List Token) : Token := ts.headD c.done

def fail {α : Type} (cause : ParseError.Cause) (t : Token) : Except Stop α :=
  .error (.failure (.parse ⟨cause, t.pos, if c.source.isEmpty then none else some c.source⟩))

def split (t : Token) : Except Stop (Literal × Token) := t.splitDigit.mapError .fault

def expect (kind : Token.Kind) (ts : List Token) : Except Stop (List Token) :=
  let t := current c ts
  if t.kind = kind then .ok (ts.drop 1) else fail c (.expected kind t.kind t.text) t

/-- Factorial marks behind an operand. -/
def factorials (e : Expr) : List Token → Expr × List Token
  | [] => (e, [])
  | t :: ts => if t.kind = .factorial then factorials (.unary .factorial e) ts else (e, t :: ts)

def spanSigns : List Token → List UnaryOp × List Token
  | [] => ([], [])
  | t :: ts =>
    match t.sign? with
    | some op => let (ops, rest) := spanSigns ts; (op :: ops, rest)
    | none => ([], t :: ts)

/-- A target with its value: a name, or a call on distinct names. -/
def assignment (target value : Expr) (t : Token) : Except Stop Expr :=
  let refused := fail c (.cannotAssign target.render) t
  match target with
  | .name x => .ok (.assign x value)
  | .call f args =>
    match args.mapM fun | .name x => some x | _ => none with
    | some params =>
      if params.Nodup then .ok (.define f params value) else fail c (.duplicateParameter f) t
    | none => refused
  | _ => refused

variable (deeper : Level)

/-- A whole expression up to a closing delimiter; bars around it do not count inside. -/
def enclosed (b : Bracket) : Reader Expr := fun ts => do
  let (e, ts) ← deeper.expression 0 0 false ts
  let ts ← expect c (.closing b) ts
  return (e, ts)

def braced : Reader Expr := fun ts =>
  let t := current c ts
  if t.kind = .opening .brace then enclosed c deeper .brace (ts.drop 1)
  else fail c (.expectedBrace t.text) t

/-- Further arguments, each behind a comma, at most `fuel` of them. -/
def moreArguments : (fuel : Nat) → Reader (List Expr)
  | 0, ts => .ok ([], ts)
  | _, [] => .ok ([], [])
  | fuel + 1, t :: ts =>
    if t.kind = .comma then do
      let (e, ts) ← deeper.expression 0 0 false ts
      let (es, ts) ← moreArguments fuel ts
      return (e :: es, ts)
    else .ok ([], t :: ts)

/-- Arguments up to a closing delimiter. -/
def arguments (b : Bracket) : Reader (List Expr) := fun ts =>
  if (current c ts).kind = .closing b then .ok ([], ts.drop 1)
  else do
    let (e, ts) ← deeper.expression 0 0 false ts
    let (es, ts) ← moreArguments deeper ts.length ts
    let ts ← expect c (.closing b) ts
    return (e :: es, ts)

/-- The delimiter of an argument list at the front. -/
def parentheses? (ts : List Token) : Option Bracket :=
  match (current c ts).kind with
  | .opening .paren => some .paren
  | .opening .tallParen => some .tallParen
  | _ => none

def builtinArguments (f : Builtin) (name : Token) (bars : Nat) : Reader (List Expr) := fun ts =>
  match parentheses? c ts with
  | some b => do
    let (args, ts) ← arguments c deeper b (ts.drop 1)
    if args.length = f.arity then return (args, ts)
    else fail c (.argumentCount f args.length) name
  | none =>
    if f.arity ≠ 1 then fail c (.argumentsNotInParentheses f) name
    else if (current c ts).kind.isTerminator then fail c (.missingArgument f) name
    else do
      let (e, ts) ← deeper.expression 19 bars true ts
      return ([e], ts)

/-- An exponent between the name of a function and its argument. -/
def powerSuffix (bars : Nat) : Reader (Option Expr) := fun ts =>
  if (current c ts).kind = .operator (.arithmetic .pow) then do
    let (e, ts) ← deeper.exponent bars (ts.drop 1)
    return (some e, ts)
  else .ok (none, ts)

/-- A call of `f` behind its name and special operand. -/
def builtinCall (f : Builtin) (special : Option Expr) (name : Token) (bars : Nat) : Reader Expr :=
  fun ts => do
    let (exponent, ts) ← powerSuffix c deeper bars ts
    let (args, ts) ← builtinArguments c deeper f name bars ts
    let call := Expr.builtin f args special
    return (match exponent with | some e => call.pow e | none => call, ts)

/-- The base of a logarithm behind its subscript mark: braces, one digit or a numeral. -/
def logBase : Reader Expr := fun ts =>
  let t := current c ts
  match t.kind with
  | .opening .brace => enclosed c deeper .brace (ts.drop 1)
  | .number =>
    if t.isDigitRun then do
      let (digit, rest) ← split t
      return (.literal digit, rest :: ts.drop 1)
    else .ok (.literal t.literal, ts.drop 1)
  | _ => fail c .expectedLogBase t

def logarithm (name : Token) (bars : Nat) : Reader Expr := fun ts =>
  if (current c ts).kind = .subscript then do
    let (base, ts) ← logBase c deeper (ts.drop 1)
    builtinCall c deeper .log (some base) name bars ts
  else builtinCall c deeper .log none name bars ts

/-- The index of a root in square brackets. -/
def rootIndex : Reader (Option Expr) := fun ts =>
  let index (b : Bracket) : Except Stop (Option Expr × List Token) := do
    let (e, ts) ← enclosed c deeper b (ts.drop 1)
    return (some e, ts)
  match (current c ts).kind with
  | .opening .square => index .square
  | .opening .tallSquare => index .tallSquare
  | _ => .ok (none, ts)

def root : Reader Expr := fun ts => do
  let (index, ts) ← rootIndex c deeper ts
  let (e, ts) ← braced c deeper ts
  return (.builtin .sqrt [e] index, ts)

def fraction : Reader Expr := fun ts => do
  let (numerator, ts) ← braced c deeper ts
  let (denominator, ts) ← braced c deeper ts
  return (.binary (.arithmetic .div) numerator denominator, ts)

/-- A name, with the arguments in plain parentheses right behind it. -/
def named (t : Token) : Reader Expr := fun ts =>
  let x := Name.ofText t.text
  if (current c ts).kind = .opening .paren then do
    let (args, ts) ← arguments c deeper .paren (ts.drop 1)
    return (.call x args, ts)
  else .ok (.name x, ts)

def absolute (e : Expr) : Expr := .builtin .abs [e] none

/-- An expression between bars, which may hold bars only inside other delimiters. -/
def barred (bars : Nat) : Reader Expr := fun ts => do
  let (e, ts) ← deeper.expression 0 (bars + 1) false ts
  let ts ← expect c .bar ts
  return (absolute e, ts)

def atom (bars : Nat) : Reader Expr
  | [] => fail c .unexpectedEnd c.done
  | t :: ts =>
    match t.kind with
    | .number => .ok (.literal t.literal, ts)
    | .name => named c deeper t ts
    | .opening .square => do
      let (items, ts) ← arguments c deeper .square ts
      return (.list items, ts)
    | .opening .tallSquare => do
      let (items, ts) ← arguments c deeper .tallSquare ts
      return (.list items, ts)
    | .opening .tallBar => do
      let (e, ts) ← enclosed c deeper .tallBar ts
      return (absolute e, ts)
    | .opening b => enclosed c deeper b ts
    | .bar => barred c deeper bars ts
    | .fraction => fraction c deeper ts
    | .builtin .sqrt => root c deeper ts
    | .builtin .log => logarithm c deeper t bars ts
    | .builtin f => builtinCall c deeper f none t bars ts
    | kind => fail c (.unexpected kind t.text) t

def primary (bars : Nat) : Reader Expr := fun ts => do
  let (e, ts) ← atom c deeper bars ts
  return factorials e ts

/-- An operand with at most one sign before it. -/
def signed (bars : Nat) : Reader Expr := fun ts =>
  match (current c ts).sign? with
  | some op => do
    let (e, ts) ← deeper.expression 15 bars false (ts.drop 1)
    return (.unary op e, ts)
  | none => primary c deeper bars ts

/-- The operand of `^`: signs, then one digit of a run or a primary. -/
def exponentOperand (bars : Nat) : Reader Expr := fun ts =>
  let (signs, ts) := spanSigns ts
  let t := current c ts
  do
    let (e, ts) ←
      if t.isDigitRun then do
        let (digit, rest) ← split t
        pure (.literal digit, rest :: ts.drop 1)
      else primary c deeper bars ts
    return (signs.foldr .unary e, ts)

def exponentAt (bars : Nat) : Reader Expr := fun ts => do
  let (base, ts) ← exponentOperand c deeper bars ts
  if (current c ts).kind = .operator (.arithmetic .pow) then
    let (e, ts) ← deeper.exponent bars (ts.drop 1)
    return (base.pow e, ts)
  else return (base, ts)

/-- Takes operators and their right operands while they bind at least as tight as `power`; every
round takes a token. -/
def operators (power bars : Nat) (bare : Bool) : (fuel : Nat) → Expr → Reader Expr
  | 0, left, ts => .ok (left, ts)
  | _, left, [] => .ok (left, [])
  | fuel + 1, left, t :: ts =>
    match t.kind with
    | .operator (.arithmetic .pow) =>
      if BinaryOp.power (.arithmetic .pow) < power then .ok (left, t :: ts)
      else do
        let (right, ts) ← deeper.exponent bars ts
        operators power bars bare fuel (left.pow right) ts
    | .operator op =>
      if op.power < power then .ok (left, t :: ts)
      else do
        let (right, ts) ← deeper.expression (op.power + 1) bars false ts
        operators power bars bare fuel (.binary op left right) ts
    | .equal =>
      if 2 < power then .ok (left, t :: ts)
      else do
        let (value, ts) ← deeper.expression 1 bars false ts
        let e ← assignment c left value t
        operators power bars bare fuel e ts
    | kind =>
      if kind.startsOperand bars && power ≤ 20 && !(bare && kind.isBuiltin) then do
        let (right, ts) ← deeper.expression 21 bars false (t :: ts)
        operators power bars bare fuel (left.mul right) ts
      else .ok (left, t :: ts)

def expressionAt (power bars : Nat) (bare : Bool) : Reader Expr := fun ts => do
  let (left, ts) ← signed c deeper bars ts
  operators c deeper power bars bare ts.length left ts

/-- The readers with `n` levels left. -/
def level : (n : Nat) → Level
  | 0 =>
    { expression := fun _ _ _ ts => fail c (.nestedTooDeep c.limit) (current c ts)
      exponent := fun _ ts => fail c (.nestedTooDeep c.limit) (current c ts) }
  | n + 1 =>
    { expression := fun power bars bare ts => expressionAt c (level n) power bars bare ts
      exponent := fun bars ts => exponentAt c (level n) bars ts }

end Parser

namespace Expr

def defaultNesting : Int := 128

/-- The expression that makes up some tokens; nothing behind the first end token is read. The stack
of the host is not modelled: where it has too little room for the nesting that `limit` allows, the
host stops with a parse error of its own, that the expression is nested too deeply. -/
def ofTokens (tokens : List Token) (source : String) (limit : Int) : Except Stop Expr :=
  match tokens.getLast?, tokens.find? (·.kind = .done) with
  | some last, some done =>
    if last.kind ≠ .done then .error (.failure (.parse ⟨.missingEnd, 0, none⟩))
    else
      let c : Parser.Context := ⟨source, limit, done⟩
      match tokens.takeWhile (·.kind ≠ .done) with
      | [] => Parser.fail c .empty done
      | body => do
        let (e, rest) ← (Parser.level c limit.toNat).expression 0 0 false body
        match rest with
        | [] => return e
        | t :: _ => Parser.fail c (.trailing t.text) t
  | _, _ => .error (.failure (.parse ⟨.missingEnd, 0, none⟩))

def parse (source : String) (limit : Int) : Except Stop Expr := do
  let tokens ← Token.tokenize source
  ofTokens tokens source limit

end Expr

end UnitSheet
