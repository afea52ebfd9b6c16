import UnitSheet.Unit.Dimension

namespace UnitSheet

/-- A unit measured in SI base units. -/
structure Measure where
  scale : Float
  dimension : Dimension

namespace Measure

def symbols : List (String × Measure) :=
  [("m", ⟨1, { length := 1 }⟩),
   ("s", ⟨1, { time := 1 }⟩),
   ("g", ⟨1e-3, { mass := 1 }⟩),
   ("A", ⟨1, { current := 1 }⟩),
   ("K", ⟨1, { temperature := 1 }⟩),
   ("mol", ⟨1, { amount := 1 }⟩),
   ("cd", ⟨1, { luminous := 1 }⟩),
   ("N", ⟨1, { length := 1, time := -2, mass := 1 }⟩),
   ("J", ⟨1, { length := 2, time := -2, mass := 1 }⟩),
   ("Pa", ⟨1, { length := -1, time := -2, mass := 1 }⟩),
   ("C", ⟨1, { time := 1, current := 1 }⟩),
   ("Hz", ⟨1, { time := -1 }⟩),
   ("S", ⟨1, { length := -2, time := 3, mass := -1, current := 2 }⟩),
   ("Ohm", ⟨1, { length := 2, time := -3, mass := 1, current := -2 }⟩),
   ("Omega", ⟨1, { length := 2, time := -3, mass := 1, current := -2 }⟩),
   ("F", ⟨1, { length := -2, time := 4, mass := -1, current := 2 }⟩),
   ("V", ⟨1, { length := 2, time := -3, mass := 1, current := -1 }⟩),
   ("W", ⟨1, { length := 2, time := -3, mass := 1 }⟩),
   ("T", ⟨1, { time := -2, mass := 1, current := -1 }⟩),
   ("Wb", ⟨1, { length := 2, time := -2, mass := 1, current := -1 }⟩),
   ("H", ⟨1, { length := 2, time := -2, mass := 1, current := -2 }⟩)]

def prefixes : List (String × Float) :=
  [("a", 1e-18), ("f", 1e-15), ("p", 1e-12), ("n", 1e-9), ("mu", 1e-6), ("m", 1e-3), ("c", 1e-2),
   ("d", 1e-1), ("", 1), ("k", 1e3), ("M", 1e6), ("G", 1e9), ("T", 1e12), ("P", 1e15), ("E", 1e18)]

def prefixed : List (String × Measure) :=
  symbols.flatMap fun (symbol, m) =>
    prefixes.map fun (front, factor) => (front ++ symbol, { m with scale := factor * m.scale })

/-- A bare symbol wins over a prefixed one of the same spelling, an earlier symbol over a later
one. -/
def ofWord? (word : String) : Option Measure := (symbols.lookup word).or (prefixed.lookup word)

/-- All unit words in the order of their characters. -/
def words : List String := ((prefixed.map Prod.fst).mergeSort (· ≤ ·)).eraseDups

end Measure

end UnitSheet
