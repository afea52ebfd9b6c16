namespace UnitSheet.Console

namespace Markup

def startsTag (c : Char) : Bool := c.isLower || c ∈ ['#', '/', '@']

/-- The inside of a tag behind its opening bracket, and what follows the closing one. -/
def tag? (cs : List Char) : Option (List Char × List Char) :=
  if cs.head?.any startsTag then
    let inside := cs.takeWhile fun c => c ≠ '[' && c ≠ ']'
    match cs.drop inside.length with
    | ']' :: rest => some (inside, rest)
    | _ => none
  else none

def spanBackslashes (cs : List Char) : Nat × List Char :=
  let n := (cs.takeWhile (· = '\\')).length
  (n, cs.drop n)

def backslashes (n : Nat) : List Char := List.replicate n '\\'

/-- Puts a backslash before whatever looks like a tag, and doubles those that stand there. -/
def escapeTags : (fuel : Nat) → List Char → List Char
  | 0, cs => cs
  | fuel + 1, cs =>
    let (n, rest) := spanBackslashes cs
    match rest with
    | [] => backslashes n
    | '[' :: more =>
      match tag? more with
      | some (inside, rest) =>
        backslashes (2 * n + 1) ++ '[' :: (inside ++ ']' :: escapeTags fuel rest)
      | none => backslashes n ++ '[' :: escapeTags fuel more
    | c :: more => backslashes n ++ c :: escapeTags fuel more

/-- A lone backslash at the end is doubled, so that it does not escape a tag behind the text. -/
def escapeEnd (cs : List Char) : List Char :=
  match cs.reverse with
  | ['\\'] => cs ++ ['\\']
  | '\\' :: c :: _ => if c = '\\' then cs else cs ++ ['\\']
  | _ => cs

def escape (text : String) : String :=
  let cs := text.toList
  String.ofList (escapeEnd (escapeTags cs.length cs))

/-- Between tags, a backslash before a bracket is dropped. -/
def plainPiece : List Char → List Char
  | '\\' :: '[' :: cs => '[' :: plainPiece cs
  | c :: cs => c :: plainPiece cs
  | [] => []

/-- Shows a text; `piece` holds the characters since the last tag, the last one first. -/
def dropTags : (fuel : Nat) → (piece : List Char) → List Char → List Char
  | 0, piece, cs => plainPiece (piece.reverse ++ cs)
  | fuel + 1, piece, cs =>
    let (n, rest) := spanBackslashes cs
    match rest with
    | [] => plainPiece (piece.reverse ++ backslashes n)
    | '[' :: more =>
      match tag? more with
      | some (inside, rest) =>
        let shown := if n % 2 = 1 then '[' :: (inside ++ [']']) else []
        plainPiece piece.reverse ++ backslashes (n / 2) ++ shown ++ dropTags fuel [] rest
      | none => dropTags fuel ('[' :: (backslashes n ++ piece)) more
    | c :: more => dropTags fuel (c :: (backslashes n ++ piece)) more

/-- Controls that a console would act on are left out. -/
def isShown (c : Char) : Bool := c.toNat ∉ [7, 8, 11, 12, 13]

/-- The text without its tags; a text without brackets stands as it is. -/
def plain (text : String) : String :=
  let cs := text.toList
  let shown := if '[' ∈ cs then dropTags cs.length [] cs else cs
  String.ofList (shown.filter isShown)

end Markup

end UnitSheet.Console
