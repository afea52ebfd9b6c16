import UnitSheet.Expr.Names
import UnitSheet.Sheet.Basic
import UnitSheet.Sheet.Plan

namespace UnitSheet

/-- An item with what its text was parsed to. -/
structure Slot where
  item : Item
  parsed : Except Failure Expr

namespace Slot

def expr? (s : Slot) : Option Expr := s.parsed.toOption

def target (s : Slot) : Option String := s.expr?.bind (·.target?)

def names (s : Slot) : List String := (s.expr?.map Expr.names).getD []

def slotNames (s : Slot) : SlotNames := ⟨s.target, s.names⟩

end Slot

/-- What becomes of an item: no outcome until it is settled. -/
structure Result where
  source : String
  target : Option String
  outcome : Option (Except Failure Value)

namespace Result

def ofSlot (s : Slot) : Result where
  source := s.item.value
  target := s.target
  outcome := match s.parsed with
    | .ok _ => none
    | .error f => some (.error f)

def value? (r : Result) : Option Value := r.outcome.bind (·.toOption)

def failure? (r : Result) : Option Failure :=
  match r.outcome with
  | some (.error f) => some f
  | _ => none

def exact (r : Result) : Result := { r with outcome := r.outcome.map (·.map Value.exact) }

end Result

namespace Sheet

open Update

/-- The slots of a batch; a text that cannot be parsed fails by itself. -/
def slotsFrom (index : Nat) : List Item → Update Fault (List Slot)
  | [] => pure []
  | item :: items => do
    let s ← get
    let parsed ← attempt (lift (s.parse item))
    match parsed with
    | .ok _ => pure ()
    | .error f => record (.notParsed index f)
    let rest ← slotsFrom (index + 1) items
    return ⟨item, parsed⟩ :: rest

def slots (items : List Item) : Update Fault (List Slot) := slotsFrom 0 items

def plan (s : Sheet) (slots : List Slot) :
    Plan := Plan.ofSlots s.constants (slots.map Slot.slotNames)

def store (x : String) (v : Option Value) (s : Sheet) : Sheet :=
  { s with assigned := match v with
    | some v => s.assigned.insert x v
    | none => s.assigned.erase x }

/-- The last answer becomes the last value among results, or else what it was before the batch. -/
def bindAnswer (earlier : List Result) (previous : Option Value) (s : Sheet) : Sheet :=
  s.store answerName ((earlier.reverse.findSome? Result.value?).or previous)

/-- The sheet on which a slot is evaluated: the last answer is bound before a slot that reads it,
unless the batch defines it. -/
def readyFor (slot : Slot) (earlier : List Result) (previous : Option Value) (definesAnswer : Bool)
    (s : Sheet) : Sheet :=
  if answerName ∈ slot.names ∧ !definesAnswer then s.bindAnswer earlier previous else s

def settle (slot : Slot) (e : Expr) (index : Nat) (results : List Result) :
    Update Fault (List Result) := do
  let outcome ← attempt (evaluateParsed slot.item e)
  match outcome with
  | .ok v => record (.evaluated index v)
  | .error f => record (.failed index f)
  return results.modify index ({ · with outcome := some outcome })

def slotAt? (slots : List Slot) (index : Nat) : Option (Slot × Expr) :=
  slots[index]?.bind fun slot => slot.expr?.map (slot, ·)

/-- Settles the slot at an index; one that was not parsed is passed over. -/
def settleNext (slots : List Slot) (previous : Option Value) (definesAnswer : Bool)
    (results : List Result) (index : Nat) : Update Fault (List Result) :=
  match slotAt? slots index with
  | none => pure results
  | some (slot, e) => do
    modify (readyFor slot (results.take index) previous definesAnswer)
    settle slot e index results

def settleAll (slots : List Slot) (previous : Option Value) (definesAnswer : Bool)
    (order : List Nat) (results : List Result) : Update Fault (List Result) :=
  order.foldlM (settleNext slots previous definesAnswer) results

/-- A slot that reads a name another one defines, and whose own name no other one reads. -/
def isDisplayLeaf (slots : List SlotNames) (i : Nat) : Bool :=
  let others := slots.eraseIdx i
  match slots[i]? with
  | none => false
  | some slot =>
    let readsBatch := slot.names.any fun x =>
      some x ≠ slot.target && slots.any fun other => other.target = some x
    let isRead := slot.target.any fun x => others.any fun other => x ∈ other.names
    readsBatch && !isRead

def definesAnswer (slots : List Slot) : Bool := slots.any (·.target = some answerName)

/-- Only display leaves keep their significant figures. -/
def displayed (slots : List Slot) (results : List Result) : List Result :=
  let names := slots.map Slot.slotNames
  results.mapIdx fun i r => if isDisplayLeaf names i then r else r.exact

/-- The sheet with a warning if there are slots that wait for a cycle. -/
def noteCycle (stuck : List Nat) (s : Sheet) : Sheet :=
  if stuck = [] then s else { s with journal := s.journal ++ [.cycle stuck] }

/-- Evaluates slots as one batch; the last answer is at last the last value among the results. -/
def evaluateSlots (slots : List Slot) : Update Fault (List Result) := do
  let s ← get
  let previous := s.assigned.get? answerName
  let plan := s.plan slots
  modify (noteCycle plan.stuck)
  let results ← settleAll slots previous (definesAnswer slots) plan.order (slots.map Result.ofSlot)
  unless definesAnswer slots do modify (bindAnswer results previous)
  return displayed slots results

/-- Evaluates items as one batch; results stand in the order of the items. -/
def batch (items : List Item) : Update Fault (List Result) := do
  let slots ← slots items
  evaluateSlots slots

end Sheet

end UnitSheet
