import UnitSheet.Expr.Basic

namespace UnitSheet.Expr

/-- The name that a node reads by itself. -/
def head? : Expr → Option String
  | name x => some x
  | call f _ => some f
  | _ => none

/-- The names that a node binds in its children. -/
def binders : Expr → List String
  | define _ params _ => params
  | _ => []

def insertName (x : String) (names : List String) :
    List String := if x ∈ names then names else x :: names

/-- The names with the one that a node reads, unless it is bound around the node. -/
def insertHead (e : Expr) (bound names : List String) : List String :=
  match e.head? with
  | some x => if x ∈ bound then names else insertName x names
  | none => names

/-- Visits nodes from a list of open ones, each with the names bound around it. -/
def collect : (fuel : Nat) → List (Expr × List String) → List String → List String
  | 0, _, names => names
  | _, [], names => names
  | fuel + 1, (e, bound) :: rest, names =>
    collect fuel (e.children.map (·, e.binders ++ bound) ++ rest) (insertHead e bound names)

/-- The names read, without repetition; every node is visited once. -/
def names (e : Expr) : List String := collect e.size [(e, [])] []

end UnitSheet.Expr
