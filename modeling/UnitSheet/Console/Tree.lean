import UnitSheet.Console.Markup
import UnitSheet.Console.Width

namespace UnitSheet.Console

inductive Tree
  | node (label : String) (children : List Tree)

namespace Tree

/-- The lines of a label without its markup, the first behind one guide and the rest behind
another. -/
def labelLines (label first next : String) : List String :=
  match shownLines (Markup.plain label) with
  | [] => []
  | l :: ls => (first ++ l) :: ls.map (next ++ ·)

mutual

/-- The lines of a tree, with guides before its own label and before what stands below. -/
def linesBehind (first next : String) : Tree → List String
  | node label children => labelLines label first next ++ childLines next children

def childLines (guide : String) : List Tree → List String
  | [] => []
  | [t] => linesBehind (guide ++ "└── ") (guide ++ "    ") t
  | t :: ts => linesBehind (guide ++ "├── ") (guide ++ "│   ") t ++ childLines guide ts

end

def lines : Tree → List String := linesBehind "" ""

end Tree

end UnitSheet.Console
