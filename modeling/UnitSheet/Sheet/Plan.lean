import UnitSheet.Bindings

/-!
The order in which the slots of a batch are evaluated.

A slot that reads a name runs after the nearest earlier definition of it, or else after the first
later one, and before the definitions behind that one; definitions of one name keep their order; and
a slot that reads the last answer runs after all slots before it. Of the slots that may run, the
first one does.
-/
namespace UnitSheet

def answerName : String := "ans"

/-- What the order depends on in a slot: the name it defines and the names it reads. -/
structure SlotNames where
  target : Option String
  names : List String

namespace Plan

/-- The pair `(u, v)` stands for a slot `u` that runs before the slot `v`. -/
abbrev Edge := Nat × Nat

/-- The slots that define a name, in input order. -/
def definitions (slots : List SlotNames) (x : String) : List Nat :=
  (List.range slots.length).filter fun i => (slots[i]?.bind (·.target)) = some x

def reads (slots : List SlotNames) (i : Nat) : List String := ((slots[i]?.map (·.names)).getD [])

def targets (slots : List SlotNames) : List String := (slots.filterMap (·.target)).eraseDups

def consecutive : List Nat → List Edge
  | a :: b :: rest => (a, b) :: consecutive (b :: rest)
  | _ => []

/-- Definitions of one name keep their order. -/
def chainEdges (slots : List SlotNames) : List Edge :=
  (targets slots).flatMap fun x => consecutive (definitions slots x)

/-- Readers of the last answer run after every earlier slot. -/
def answerEdges (slots : List SlotNames) : List Edge :=
  if answerName ∈ targets slots then []
  else
    (List.range slots.length).flatMap fun j =>
      if answerName ∈ reads slots j then (List.range j).map (·, j) else []

/-- The definitions of a name apart from the slot `i`. -/
def others (slots : List SlotNames) (i : Nat) (x : String) :
    List Nat := (definitions slots x).filter (· ≠ i)

/-- The definition that a reader at `i` sees. -/
def source? (others : List Nat) (i : Nat) :
    Option Nat := (others.filter (· < i)).getLast?.or others.head?

/-- Between the definition read and the next one. -/
def readEdges (slots : List SlotNames) (i : Nat) (x : String) : List Edge :=
  match source? (others slots i x) i with
  | some s => (s, i) :: ((others slots i x).filter (s < ·)).map (i, ·)
  | none => []

def edges (constants : Bindings) (slots : List SlotNames) : List Edge :=
  chainEdges slots ++ answerEdges slots ++
    (List.range slots.length).flatMap fun i =>
      ((reads slots i).filter fun x => !constants.contains x).flatMap (readEdges slots i)

/-- Takes the first pending slot that waits for no other, again and again; the rest is stuck. -/
def schedule : (fuel : Nat) → (pending : List Nat) → List Edge → List Nat × List Nat
  | 0, pending, _ => ([], pending)
  | fuel + 1, pending, es =>
    match pending.find? fun i => es.all (·.2 ≠ i) with
    | some i =>
      let (order, stuck) := schedule fuel (pending.erase i) (es.filter (·.1 ≠ i))
      (i :: order, stuck)
    | none => ([], pending)

end Plan

/-- The order of a batch: the slots that can be ordered, then those that wait for a cycle. -/
structure Plan where
  ordered : List Nat
  stuck : List Nat

namespace Plan

def ofSlots (constants : Bindings) (slots : List SlotNames) : Plan :=
  let (ordered, stuck) := schedule slots.length (List.range slots.length) (edges constants slots)
  ⟨ordered, stuck⟩

def order (p : Plan) : List Nat := p.ordered ++ p.stuck

end Plan

end UnitSheet
