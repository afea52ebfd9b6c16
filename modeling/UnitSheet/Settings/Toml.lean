import UnitSheet.Settings.Datum

/-!
Reading of TOML documents: tables, dotted keys, strings on one line, numbers, truth values, arrays
and inline tables. A step returns what it read and the characters that remain.
-/
namespace UnitSheet.Toml

abbrev Step (α : Type) := List Char → Option (α × List Char)

def isControl (c : Char) : Bool := (c.toNat < 32 && c ≠ '\t') || c.toNat = 127

def skipSpace (cs : List Char) : List Char := cs.dropWhile fun c => c = ' ' || c = '\t'

/-- What follows a comment, which runs to the end of its line. -/
def skipComment : List Char → Option (List Char)
  | '#' :: cs =>
    if (cs.takeWhile (· ≠ '\n')).any isControl then none else some (cs.dropWhile (· ≠ '\n'))
  | cs => some cs

/-- Skips blanks, line ends and comments, at most `fuel` lines of them. -/
def skipLines : (fuel : Nat) → List Char → Option (List Char)
  | 0, cs => some cs
  | fuel + 1, cs =>
    let cs := cs.dropWhile fun c => c = ' ' || c = '\t' || c = '\n'
    match cs with
    | '#' :: _ => (skipComment cs).bind (skipLines fuel)
    | _ => some cs

def hexDigit? (c : Char) : Option Nat :=
  if c.isDigit then some (c.toNat - 48)
  else if 'a' ≤ c ∧ c ≤ 'f' then some (c.toNat - 87)
  else if 'A' ≤ c ∧ c ≤ 'F' then some (c.toNat - 55)
  else none

/-- A code point of `n` hexadecimal digits. -/
def codePoint? (n : Nat) (cs : List Char) : Option Char := do
  let digits ← (cs.take n).mapM hexDigit?
  if digits.length = n then
    let code := digits.foldl (fun m d => 16 * m + d) 0
    if code.isValidChar then some (Char.ofNat code) else none
  else none

def escape? : Char → Option Char
  | 'b' => some '\x08'
  | 't' => some '\t'
  | 'n' => some '\n'
  | 'f' => some '\x0c'
  | 'r' => some '\r'
  | '"' => some '"'
  | '\\' => some '\\'
  | _ => none

/-- A string behind its opening double quote, of at most `fuel` characters. -/
def basicString : (fuel : Nat) → Step (List Char)
  | 0, _ => none
  | fuel + 1, cs =>
    let put (c : Char) (rest : List Char) : Option (List Char × List Char) :=
      (basicString fuel rest).map fun (s, cs) => (c :: s, cs)
    match cs with
    | [] => none
    | '"' :: cs => some ([], cs)
    | '\\' :: 'u' :: cs => (codePoint? 4 cs).bind (put · (cs.drop 4))
    | '\\' :: 'U' :: cs => (codePoint? 8 cs).bind (put · (cs.drop 8))
    | '\\' :: c :: cs => (escape? c).bind (put · cs)
    | c :: cs => if isControl c then none else put c cs

/-- A string behind its opening single quote, taken as it stands. -/
def literalString (cs : List Char) : Option (List Char × List Char) :=
  let s := cs.takeWhile (· ≠ '\'')
  match cs.drop s.length with
  | '\'' :: rest => if s.any isControl then none else some (s, rest)
  | _ => none

def isBare (c : Char) : Bool := c.isAlphanum || c = '-' || c = '_'

def keyPart : Step String
  | '"' :: cs => (basicString (cs.length + 1) cs).map fun (s, cs) => (String.ofList s, cs)
  | '\'' :: cs => (literalString cs).map fun (s, cs) => (String.ofList s, cs)
  | cs =>
    match cs.takeWhile isBare with
    | [] => none
    | bare => some (String.ofList bare, cs.drop bare.length)

/-- A key of parts divided by points, with blanks around them. -/
def dottedKey : (fuel : Nat) → Step (List String)
  | 0, _ => none
  | fuel + 1, cs => do
    let (part, cs) ← keyPart cs
    match skipSpace cs with
    | '.' :: cs =>
      let (parts, cs) ← dottedKey fuel (skipSpace cs)
      return (part :: parts, cs)
    | cs => return ([part], cs)

/-- Digits with single underscores between them; the underscores are dropped. -/
def spanDigits (isDigit : Char → Bool) : List Char → List Char × List Char
  | '_' :: c :: cs =>
    if isDigit c then
      let (ds, rest) := spanDigits isDigit cs
      (c :: ds, rest)
    else ([], '_' :: c :: cs)
  | c :: cs =>
    if isDigit c then
      let (ds, rest) := spanDigits isDigit cs
      (c :: ds, rest)
    else ([], c :: cs)
  | [] => ([], [])

/-- Digits that start with one. -/
def digits? (isDigit : Char → Bool) : Step (List Char)
  | c :: cs => if isDigit c then some (spanDigits isDigit (c :: cs)) else none
  | [] => none

def radixInteger (radix : Nat) (cs : List Char) : Option (Datum × List Char) := do
  let isDigit (c : Char) : Bool := (hexDigit? c).any (· < radix)
  let (ds, cs) ← digits? isDigit cs
  let n := (ds.filterMap hexDigit?).foldl (fun m d => radix * m + d) 0
  return (.integer n, cs)

/-- The whole part of a number has no leading zero. -/
def wholePart : Step (List Char)
  | '0' :: cs => some (['0'], cs)
  | cs => digits? Char.isDigit cs

def fractionPart (cs : List Char) : List Char × List Char :=
  match cs with
  | '.' :: more => ((digits? Char.isDigit more).map fun (ds, cs) => ('.' :: ds, cs)).getD ([], cs)
  | _ => ([], cs)

def exponentPart (cs : List Char) : List Char × List Char :=
  match cs with
  | e :: more =>
    if e = 'e' ∨ e = 'E' then
      let (sign, more) := match more with
        | '+' :: more => ([], more)
        | '-' :: more => (['-'], more)
        | more => ([], more)
      ((digits? Char.isDigit more).map fun (ds, cs) => ('e' :: (sign ++ ds), cs)).getD ([], cs)
    else ([], cs)
  | [] => ([], [])

/-- What keeps a document from being read: it is malformed, or its reading breaks down. -/
inductive Defect
  | malformed
  | fault (f : Fault)

/-- A step that may break down. -/
abbrev Reader (α : Type) := List Char → Except Defect (α × List Char)

def orMalformed {α : Type} : Option α → Except Defect α
  | some a => .ok a
  | none => .error .malformed

/-- A whole number in decimal digits, of which the host reads only so many. -/
def decimalInteger (host : Host) (negative : Bool) (digits : List Char) : Except Defect Datum :=
  if host.digits < digits.length then
    .error (.fault (.longNumeral host.digits digits.length))
  else
    let n := Decimal.natOfDigits (digits.filterMap Decimal.digit?)
    .ok (.integer (if negative then -n else n))

def decimalNumber (host : Host) (cs : List Char) : Except Defect (Datum × List Char) := do
  let (negative, cs) := Decimal.spanSign cs
  let (whole, cs) ← orMalformed (wholePart cs)
  let (fraction, cs) := fractionPart cs
  let (exponent, cs) := exponentPart cs
  if fraction.isEmpty && exponent.isEmpty then
    return (← decimalInteger host negative whole, cs)
  else
    let x ← orMalformed (Decimal.unsigned? (whole ++ fraction ++ exponent))
    return (.float (if negative then -x else x), cs)

def number (host : Host) : Reader Datum
  | '0' :: 'x' :: cs => orMalformed (radixInteger 16 cs)
  | '0' :: 'o' :: cs => orMalformed (radixInteger 8 cs)
  | '0' :: 'b' :: cs => orMalformed (radixInteger 2 cs)
  | 'i' :: 'n' :: 'f' :: cs | '+' :: 'i' :: 'n' :: 'f' :: cs => .ok (.float infinity, cs)
  | '-' :: 'i' :: 'n' :: 'f' :: cs => .ok (.float (-infinity), cs)
  | 'n' :: 'a' :: 'n' :: cs | '+' :: 'n' :: 'a' :: 'n' :: cs => .ok (.float notANumber, cs)
  | '-' :: 'n' :: 'a' :: 'n' :: cs => .ok (.float notANumber, cs)
  | cs => decimalNumber host cs

/-- Puts a value at a path of tables, which are made where they are missing. A value that is there
already, or one that is no table on the way, is an error. -/
def put (value : Datum) :
    (path : List String) → List (String × Datum) → Option (List (String × Datum))
  | [], _ => none
  | [key], fields => if (fields.lookup key).isSome then none else some (fields ++ [(key, value)])
  | key :: path, fields =>
    match fields.lookup key with
    | some (.table inner) => do
      let inner ← put value path inner
      return fields.map fun (k, d) => if k = key then (k, .table inner) else (k, d)
    | some _ => none
    | none => do
      let inner ← put value path []
      return fields ++ [(key, .table inner)]

def openTable : (path : List String) → List (String × Datum) → Option (List (String × Datum))
  | [], fields => some fields
  | key :: path, fields =>
    match fields.lookup key with
    | some (.table inner) => do
      let inner ← openTable path inner
      return fields.map fun (k, d) => if k = key then (k, .table inner) else (k, d)
    | some _ => none
    | none => do
      let inner ← openTable path []
      return fields ++ [(key, .table inner)]

def isStructured : Datum → Bool
  | .array _ | .table _ => true
  | _ => false

/-- Paths in or below which nothing may be put any more. -/
def isFrozen (frozen : List (List String)) (path : List String) : Bool :=
  frozen.any fun f => f.isPrefixOf path

section

variable (host : Host)

mutual

def value : (fuel : Nat) → Reader Datum
  | 0, _ => .error .malformed
  | fuel + 1, cs =>
    match cs with
    | '"' :: cs => do
      let (s, cs) ← orMalformed (basicString (cs.length + 1) cs)
      return (.text (String.ofList s), cs)
    | '\'' :: cs => do
      let (s, cs) ← orMalformed (literalString cs)
      return (.text (String.ofList s), cs)
    | 't' :: 'r' :: 'u' :: 'e' :: cs => .ok (.boolean true, cs)
    | 'f' :: 'a' :: 'l' :: 's' :: 'e' :: cs => .ok (.boolean false, cs)
    | '[' :: cs => do
      let (ds, cs) ← items fuel cs
      return (.array ds, cs)
    | '{' :: cs =>
      match skipSpace cs with
      | '}' :: cs => .ok (.table [], cs)
      | cs => do
        let (fields, cs) ← pairs fuel [] [] cs
        return (.table fields, cs)
    | cs => number host cs

/-- The items of an array, which may end with a comma, up to its bracket. -/
def items : (fuel : Nat) → Reader (List Datum)
  | 0, _ => .error .malformed
  | fuel + 1, cs =>
    match skipLines cs.length cs with
    | some (']' :: cs) => .ok ([], cs)
    | some cs => do
      let (d, cs) ← value fuel cs
      match ← orMalformed (skipLines cs.length cs) with
      | ',' :: cs =>
        let (ds, cs) ← items fuel cs
        return (d :: ds, cs)
      | ']' :: cs => return ([d], cs)
      | _ => .error .malformed
    | none => .error .malformed

/-- The pairs of an inline table up to its brace. -/
def pairs : (fuel : Nat) → (frozen : List (List String)) → List (String × Datum) →
    Reader (List (String × Datum))
  | 0, _, _, _ => .error .malformed
  | fuel + 1, frozen, fields, cs => do
    let (key, cs) ← orMalformed (dottedKey (cs.length + 1) cs)
    match cs with
    | '=' :: cs =>
      let (d, cs) ← value fuel (skipSpace cs)
      if isFrozen frozen key then .error .malformed
      else
        let fields ← orMalformed (put d key fields)
        let frozen := if isStructured d then key :: frozen else frozen
        match skipSpace cs with
        | '}' :: cs => return (fields, cs)
        | ',' :: cs => pairs fuel frozen fields (skipSpace cs)
        | _ => .error .malformed
    | _ => .error .malformed

end

end

/-- A document while it is read: the table that is open, the tables that no header may open again,
those that become so with the next header, and the paths that are complete. -/
structure Document where
  fields : List (String × Datum) := []
  header : List String := []
  declared : List (List String) := []
  pending : List (List String) := []
  frozen : List (List String) := []

namespace Document

/-- The proper beginnings of a dotted key, below a header. -/
def containers (header key : List String) : List (List String) :=
  (List.range (key.length - 1)).map fun i => header ++ key.take (i + 1)

def pair (host : Host) (d : Document) (cs : List Char) :
    Except Defect (Document × List Char) := do
  let (key, cs) ← orMalformed (dottedKey (cs.length + 1) cs)
  match cs with
  | '=' :: cs =>
    let (v, cs) ← value host (cs.length + 1) (skipSpace cs)
    let parents := containers d.header key
    let path := d.header ++ key
    if parents.any (· ∈ d.declared) || isFrozen d.frozen path.dropLast then .error .malformed
    else
      let fields ← orMalformed (put v path d.fields)
      let frozen := if isStructured v then path :: d.frozen else d.frozen
      return ({ d with fields, frozen, pending := parents ++ d.pending }, cs)
  | _ => .error .malformed

def openHeader (d : Document) (cs : List Char) : Option (Document × List Char) := do
  let (key, cs) ← dottedKey (cs.length + 1) (skipSpace cs)
  let declared := d.pending ++ d.declared
  if key ∈ declared || isFrozen d.frozen key then none
  else
    let fields ← openTable key d.fields
    match cs with
    | ']' :: cs =>
      return ({ d with fields, header := key, declared := key :: declared, pending := [] }, cs)
    | _ => none

def statement (host : Host) (d : Document) (cs : List Char) :
    Except Defect (Document × List Char) :=
  match cs with
  | [] => .ok (d, [])
  | '[' :: cs => orMalformed (d.openHeader cs)
  | c :: _ =>
    if isBare c || c = '"' || c = '\'' then d.pair host cs
    else if c = '#' || c = '\n' then .ok (d, cs)
    else .error .malformed

def lines (host : Host) : (fuel : Nat) → Document → List Char → Except Defect Document
  | 0, d, _ => .ok d
  | fuel + 1, d, cs => do
    let (d, cs) ← d.statement host (skipSpace cs)
    match ← orMalformed (skipComment (skipSpace cs)) with
    | [] => return d
    | '\n' :: cs => lines host fuel d cs
    | _ => .error .malformed

end Document

/-- A carriage return ends a line, with the line feed behind it or alone. -/
def joinLineEnds : List Char → List Char
  | '\r' :: '\n' :: cs => '\n' :: joinLineEnds cs
  | '\r' :: cs => '\n' :: joinLineEnds cs
  | c :: cs => c :: joinLineEnds cs
  | [] => []

/-- The fields of a document. -/
def parse (host : Host) (text : String) : Except Defect (List (String × Datum)) := do
  let cs := joinLineEnds text.toList
  let d ← Document.lines host (cs.length + 1) {} cs
  return d.fields

end UnitSheet.Toml
