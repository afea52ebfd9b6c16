namespace UnitSheet.Name

def withoutBackslash : List Char → List Char
  | '\\' :: cs => cs
  | cs => cs

/-- A backslash is dropped, and so are the braces around a subscript of one character. -/
def ofChars (cs : List Char) : List Char :=
  let bare := withoutBackslash cs
  match bare.dropWhile (· ≠ '_') with
  | ['_', '{', c, '}'] => bare.takeWhile (· ≠ '_') ++ ['_', c]
  | _ => bare

def ofText (text : String) : String := String.ofList (ofChars text.toList)

end UnitSheet.Name
