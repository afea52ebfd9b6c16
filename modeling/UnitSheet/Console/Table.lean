import UnitSheet.Console.Markup
import UnitSheet.Console.Width
import UnitSheet.Text.Blank

namespace UnitSheet.Console

structure Column where
  header : String
  alignsRight : Bool := false

structure Table where
  title : String
  columns : List Column
  rows : List (List String)

namespace Table

def cellLines (cell : String) : List String := (Markup.plain cell).splitOn "\n"

def trimEnd (line : String) : String :=
  String.ofList ((line.toList.reverse.dropWhile Text.isBlank).reverse)

/-- Fills a line up to a width; a line that goes to the right ends without blanks. -/
def pad (alignsRight : Bool) (w : Nat) (line : String) : String :=
  if alignsRight then
    let line := trimEnd line
    blanks (w - width line) ++ line
  else line ++ blanks (w - width line)

/-- The rules and bars of a line: its left end, the inside marks and its right end. -/
structure Rule where
  left : String
  fill : String
  cross : String
  right : String

def topRule : Rule := ⟨"┏", "━", "┳", "┓"⟩
def headerBars : Rule := ⟨"┃", " ", "┃", "┃"⟩
def headRule : Rule := ⟨"┡", "━", "╇", "┩"⟩
def rowBars : Rule := ⟨"│", " ", "│", "│"⟩
def bottomRule : Rule := ⟨"└", "─", "┴", "┘"⟩

def Rule.line (r : Rule) (cells : List String) : String :=
  r.left ++ r.cross.intercalate (cells.map fun c => r.fill ++ c ++ r.fill) ++ r.right

def Rule.across (r : Rule) (widths : List Nat) : String :=
  r.line (widths.map fun w => String.join (List.replicate w r.fill))

def widthOf (lines : List String) : Nat := lines.foldl (fun w l => max w (width l)) 0

def widths (t : Table) : List Nat :=
  t.columns.mapIdx fun i c =>
    widthOf (cellLines c.header ++ t.rows.flatMap fun row => cellLines (row.getD i ""))

/-- A row takes as many lines as its highest cell. -/
def rowLines (t : Table) (r : Rule) (row : List String) : List String :=
  let cells := row.map cellLines
  let height := cells.foldl (fun h ls => max h ls.length) 1
  (List.range height).map fun k =>
    r.line ((t.columns.zip (t.widths.zip cells)).map fun (c, w, ls) =>
      pad c.alignsRight w (expandTabs (ls.getD k "")))

def centred (w : Nat) (text : String) : String :=
  let rest := w - width text
  blanks (rest / 2) ++ text ++ blanks (rest - rest / 2)

def lines (t : Table) : List String :=
  let top := topRule.across t.widths
  [centred (width top) t.title, top] ++ t.rowLines headerBars (t.columns.map (·.header)) ++
    [headRule.across t.widths] ++ t.rows.flatMap (t.rowLines rowBars) ++
      [bottomRule.across t.widths]

end Table

end UnitSheet.Console
