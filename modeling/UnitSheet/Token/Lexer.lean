import UnitSheet.Failure
import UnitSheet.Decimal.Reading
import UnitSheet.Text.Blank
import UnitSheet.Text.Digit
import UnitSheet.Unit.Word

/-!
Cutting a source into tokens. Each step measures one token at the front of the remaining characters,
so the texts of the tokens and the skipped characters make up the source.
-/
namespace UnitSheet

/-- Significant figures of a numeral: all digits from the first nonzero one, none without a
point. -/
def significantFigures (numeral : List Char) : Nat :=
  if '.' ∈ numeral then max ((numeral.filter (· ≠ '.')).dropWhile (· = '0')).length 1 else 0

/-- The double nearest to a numeral of decimal digits of any script and at most one point. -/
def numeralValue (numeral : List Char) : Except Fault Float :=
  match (numeral.filter (· ≠ '.')).mapM Text.decimalDigit? with
  | some (d :: ds) =>
    let places := ((numeral.dropWhile (· ≠ '.')).drop 1).length
    .ok (Decimal.toFloat (Decimal.natOfDigits (d :: ds)) (-places))
  | _ => .error (.notDecimal (String.ofList numeral))

namespace Token

/-- A token measured at the front of some characters. -/
structure Cut where
  kind : Kind
  length : Nat
  value : Float := 0
  dimension : Dimension := .none
  figures : Nat := 0

def isSpacing (c : Char) : Bool := c ∈ [',', ';', ':', '!', ' ']

/-- The length of the blanks and spacing commands at the front. -/
def gap : List Char → Nat
  | '\\' :: c :: cs => if isSpacing c then gap cs + 2 else 0
  | c :: cs => if Text.isBlank c then gap cs + 1 else 0
  | [] => 0

def isNumeral (c : Char) : Bool := Text.isDigit c || c = '.'

def cutNumber (cs : List Char) : Except Fault Cut :=
  let run := cs.takeWhile isNumeral
  if run.count '.' > 1 ∨ run = ['.'] then .ok ⟨.malformed .numeric, run.length, 0, .none, 0⟩
  else do
    let value ← numeralValue run
    .ok ⟨.number, run.length, value, .none, significantFigures run⟩

/-- A name whose letters fill `base` characters, with the subscript behind them. -/
def cutName (base : Nat) (cs : List Char) : Cut :=
  match cs.drop base with
  | '_' :: '{' :: more =>
    match more.idxOf? '}' with
    | none => { kind := .malformed .identifier, length := cs.length }
    | some 0 => { kind := .malformed .identifier, length := base + 3 }
    | some n => { kind := .name, length := base + n + 3 }
  | '_' :: c :: _ => { kind := .name, length := if c.isAlphanum then base + 2 else base }
  | _ => { kind := .name, length := base }

/-- Keywords match as the longest beginning of what follows a backslash. -/
def keywords : List (String × Kind) :=
  [("sin^\x7b-1\x7d", .builtin .arcsin), ("cos^\x7b-1\x7d", .builtin .arccos),
   ("tan^\x7b-1\x7d", .builtin .arctan), ("sec^\x7b-1\x7d", .builtin .arcsec),
   ("csc^\x7b-1\x7d", .builtin .arccsc), ("cot^\x7b-1\x7d", .builtin .arccot),
   ("arcsin", .builtin .arcsin), ("arccos", .builtin .arccos), ("arctan", .builtin .arctan),
   ("arcsec", .builtin .arcsec), ("arccsc", .builtin .arccsc), ("arccot", .builtin .arccot),
   ("right)", .closing .tallParen), ("right|", .closing .tallBar), ("right]", .closing .tallSquare),
   ("floor", .builtin .floor), ("round", .builtin .round), ("times", .operator (.arithmetic .mul)),
   ("left(", .opening .tallParen), ("left|", .opening .tallBar), ("left[", .opening .tallSquare),
   ("sqrt", .builtin .sqrt), ("ceil", .builtin .ceil), ("fact", .builtin .fact),
     ("frac", .fraction),
   ("cdot", .operator (.arithmetic .mul)),
   ("sin", .builtin .sin), ("cos", .builtin .cos), ("tan", .builtin .tan),
   ("sec", .builtin .sec), ("csc", .builtin .csc), ("cot", .builtin .cot),
   ("abs", .builtin .abs), ("nCr", .builtin .choose), ("nPr", .builtin .permute),
   ("log", .builtin .log), ("pi", .number), ("ln", .builtin .ln)]

def keyword? (cs : List Char) : Option (String × Kind) :=
  keywords.find? fun (word, _) => word.toList.isPrefixOf cs

/-- Relations match as whole words. -/
def relations : List (String × Comparison) :=
  [("leq", .le), ("geq", .ge), ("neq", .ne), ("le", .le), ("ge", .ge), ("ne", .ne)]

/-- The functions that may be named in `\operatorname`. -/
def operatorNames : List (String × Builtin) :=
  [("floor", .floor), ("round", .round), ("ceil", .ceil), ("fact", .fact), ("abs", .abs),
   ("nCr", .choose), ("nPr", .permute)]

/-- The double nearest to the ratio of a circle's circumference to its diameter. -/
def pi : Float := 3.141592653589793

/-- The command `\operatorname` at the front, with the characters after its opening brace. -/
def cutOperatorName (cs more : List Char) : Cut :=
  match more.idxOf? '}' with
  | none => { kind := .malformed .unknown, length := cs.length }
  | some n =>
    let kind := match operatorNames.lookup (String.ofList (more.take n)) with
      | some f => .builtin f
      | none => .malformed .unknown
    { kind, length := "\\operatorname".length + n + 2 }

/-- A command that is no keyword: a relation, a named operator, a unit or a name. -/
def cutWord (cs body : List Char) : Cut :=
  let letters := body.takeWhile Char.isAlpha
  let word := String.ofList letters
  match relations.lookup word with
  | some r => { kind := .operator (.comparison r), length := letters.length + 1 }
  | none =>
    match word == "operatorname", body.drop letters.length with
    | true, '{' :: more => cutOperatorName cs more
    | _, _ =>
      if letters.isEmpty then { kind := .malformed .unknown, length := min 2 cs.length }
      else match Measure.ofWord? word with
        | some m =>
          { kind := .number, length := letters.length + 1, value := m.scale,
            dimension := m.dimension }
        | none => cutName (letters.length + 1) cs

def cutCommand (cs body : List Char) : Cut :=
  match keyword? body with
  | some (word, kind) =>
    { kind, length := word.length + 1, value := if kind = .number then pi else 0 }
  | none => cutWord cs body

def single? : Char → Option Kind
  | '+' => some (.operator (.arithmetic .add))
  | '-' => some (.operator (.arithmetic .sub))
  | '*' => some (.operator (.arithmetic .mul))
  | '/' => some (.operator (.arithmetic .div))
  | '^' => some (.operator (.arithmetic .pow))
  | '<' => some (.operator (.comparison .lt))
  | '>' => some (.operator (.comparison .gt))
  | '!' => some .factorial
  | '=' => some .equal
  | ',' => some .comma
  | '_' => some .subscript
  | '(' => some (.opening .paren)
  | ')' => some (.closing .paren)
  | '{' => some (.opening .brace)
  | '}' => some (.closing .brace)
  | '[' => some (.opening .square)
  | ']' => some (.closing .square)
  | '|' => some .bar
  | _ => none

/-- The token at the front of `c :: cs`, which starts with no gap. -/
def cut (c : Char) (cs : List Char) : Except Fault Cut :=
  if isNumeral c then cutNumber (c :: cs)
  else if c.isAlpha then .ok (cutName 1 (c :: cs))
  else if c = '\\' then .ok (cutCommand (c :: cs) cs)
  else .ok { kind := (single? c).getD (.malformed .unknown), length := 1 }

/-- The tokens up to the end of a source, malformed ones included, or up to a numeral without a
value. -/
structure Scan where
  tokens : List Token
  fault : Option Fault

/-- Cuts at most `fuel` tokens from the characters at offset `pos`. -/
def scanFrom : (fuel pos : Nat) → List Char → Scan
  | 0, pos, _ => ⟨[{ kind := .done, text := "", pos }], none⟩
  | fuel + 1, pos, cs =>
    let start := pos + gap cs
    match cs.drop (gap cs) with
    | [] => ⟨[{ kind := .done, text := "", pos := start }], none⟩
    | c :: rest =>
      match cut c rest with
      | .error f => ⟨[], some f⟩
      | .ok k =>
        let token : Token :=
          { kind := k.kind, text := String.ofList ((c :: rest).take k.length), pos := start,
            value := k.value, dimension := k.dimension, figures := k.figures }
        let after := scanFrom fuel (start + k.length) ((c :: rest).drop k.length)
        ⟨token :: after.tokens, after.fault⟩

/-- Every token has a character of its own, so the fuel is not used up. -/
def scan (source : String) : Scan := scanFrom (source.length + 1) 0 source.toList

def lex (source : String) : Except Fault (List Token) :=
  match scan source with
  | ⟨tokens, none⟩ => .ok tokens
  | ⟨_, some f⟩ => .error f

def lexicalError? (source : String) (t : Token) : Option LexicalError :=
  t.malformed?.map fun cause => ⟨cause, t.text, ⟨source, t.pos⟩⟩

/-- The tokens of a source without malformed text. -/
def tokenize (source : String) : Except Stop (List Token) :=
  let s := scan source
  match s.tokens.findSome? (lexicalError? source), s.fault with
  | some e, _ => .error (.failure (.lexical e))
  | none, some f => .error (.fault f)
  | none, none => .ok s.tokens

end Token

end UnitSheet
