import UnitSheet.Console.Json
import UnitSheet.Console.Table
import UnitSheet.Console.Tree
import UnitSheet.Sheet.Batch

namespace UnitSheet.Console

def strong (style text : String) : String := s!"[{style}]{text}[/{style}]"

/-- The number and the unit of a value; the first element gives the unit of a list. -/
def numberAndUnit : Value → String × String
  | .scalar q => (q.number, q.dimension.text)
  | .list qs =>
    let numbers := ", ".intercalate (qs.map Quantity.number)
    (s!"[{numbers}]", (Value.representative qs).dimension.text)
  | v => (v.render, "")

def figuresText : Value → String
  | .scalar q => if q.figures = 0 then "" else toString q.figures
  | _ => ""

def resultRow (index : Nat) (r : Result) : List String :=
  let head := [toString (index + 1), Markup.escape r.source]
  match r.outcome with
  | some (.ok v) =>
    let (number, unit) := numberAndUnit v
    head ++ [Markup.escape number, unit, figuresText v]
  | some (.error f) => head ++ [strong "red" (Markup.escape f.message), "", ""]
  | none => head ++ ["", "", ""]

def resultTable (results : List Result) : Table where
  title := "Results"
  columns := [⟨"#", true⟩, ⟨"Expression", false⟩, ⟨"Value", true⟩, ⟨"Unit", false⟩,
    ⟨"Sig figs", true⟩]
  rows := results.mapIdx resultRow

def quantityFields (q : Quantity) : List (String × Json) :=
  [("value", .number q.value), ("imag", .number q.imaginary),
   ("unit", .array (q.dimension.exponents.map .integer)), ("sig_figs", .integer q.figures)]

def valueJson : Value → Json
  | .scalar q => .object (("type", .text "scalar") :: quantityFields q)
  | .list qs =>
    .object [("type", .text "list"),
      ("elements", .array (qs.map fun q => .object (quantityFields q)))]
  | .boolean b => .object [("type", .text "boolean"), ("value", .boolean b)]
  | .function f params _ =>
    .object [("type", .text "function"), ("name", .text f), ("params", .array (params.map .text))]

def resultJson (r : Result) : Json :=
  .object
    [("expression", .text r.source),
     ("target", (r.target.map Json.text).getD .null),
     ("value", (r.value?.map valueJson).getD .null),
     ("error", (r.failure?.map fun f => Json.text f.message).getD .null)]

def tokenRow (t : Token) : List String :=
  let (value, unit) :=
    if t.kind = .number then (numberText t.value 0, t.dimension.text) else ("", "")
  [toString t.pos, t.kind.text, Markup.escape t.text, value, unit]

def tokenTable (tokens : List Token) : Table where
  title := "Tokens"
  columns := [⟨"Pos", true⟩, ⟨"Kind", false⟩, ⟨"Text", false⟩, ⟨"Value", true⟩, ⟨"Unit", false⟩]
  rows := tokens.map tokenRow

def quotedList (texts : List String) : String :=
  let items := ", ".intercalate (texts.map Text.quoted)
  s!"[{items}]"

/-- The name of a node and its own fields, without those that have their default. -/
def nodeFields : Expr → String × List (String × String)
  | .literal l =>
    let value := [("value", shortestText l.value)]
    let imaginary := if l.imaginary == 0 then [] else [("imag", shortestText l.imaginary)]
    let unit := if l.dimension.isNone then [] else [("unit", l.dimension.text)]
    let figures := if l.figures = 0 then [] else [("sig_figs", toString l.figures)]
    let text := if l.text.isEmpty then [] else [("text", l.text)]
    ("Literal", value ++ imaginary ++ unit ++ figures ++ text)
  | .name x => ("Identifier", [("name", x)])
  | .binary op _ _ => ("BinaryExpr", [("op", op.symbol)])
  | .unary op _ => ("UnaryExpr", [("op", op.symbol)])
  | .builtin f _ _ => ("FuncCall", [("func", f.name)])
  | .call f _ => ("Call", [("name", f)])
  | .list _ => ("ListExpr", [])
  | .assign x _ => ("Assignment", [("target", x)])
  | .define f params _ =>
    ("FunctionDef", ("name", f) :: if params.isEmpty then [] else [("params", quotedList params)])

def nodeLabel (e : Expr) : String :=
  let (name, fields) := nodeFields e
  " ".intercalate (strong "bold" name :: fields.map fun (key, text) =>
    Markup.escape s!"{key}={text}")

/-- A label behind the role that a node plays in its parent. -/
def labelled (role : String) (e : Expr) : String :=
  if role.isEmpty then nodeLabel e else strong "dim" (role ++ ":") ++ " " ++ nodeLabel e

mutual

def exprTree (role : String) : Expr → Tree
  | .literal l => .node (labelled role (.literal l)) []
  | .name x => .node (labelled role (.name x)) []
  | .binary op l r => .node (labelled role (.binary op l r)) [exprTree "left" l, exprTree "right" r]
  | .unary op e => .node (labelled role (.unary op e)) [exprTree "operand" e]
  | .builtin f args none => .node (labelled role (.builtin f args none)) (exprTrees "args" 0 args)
  | .builtin f args (some e) =>
    .node (labelled role (.builtin f args (some e)))
      (exprTrees "args" 0 args ++ [exprTree "special" e])
  | .call f args => .node (labelled role (.call f args)) (exprTrees "args" 0 args)
  | .list items => .node (labelled role (.list items)) (exprTrees "items" 0 items)
  | .assign x e => .node (labelled role (.assign x e)) [exprTree "value" e]
  | .define f params e => .node (labelled role (.define f params e)) [exprTree "body" e]

def exprTrees (role : String) (index : Nat) : List Expr → List Tree
  | [] => []
  | e :: es => exprTree s!"{role}[{index}]" e :: exprTrees role (index + 1) es

end

/-- The source of an expression above the expression itself. -/
def sourceTree (source : String) (e : Expr) : Tree :=
  .node (strong "cyan" (Markup.escape source)) [exprTree "" e]

end UnitSheet.Console
