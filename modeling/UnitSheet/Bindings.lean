import UnitSheet.Value.Basic

/-!
Names bound to values. Only what `get?` finds counts; the order of the entries does not.
-/
namespace UnitSheet

structure Bindings where
  entries : List (String × Value) := []

namespace Bindings

def get? (b : Bindings) (x : String) : Option Value := (b.entries.find? (·.1 = x)).map (·.2)

def contains (b : Bindings) (x : String) : Bool := (b.get? x).isSome

def erase (b : Bindings) (x : String) : Bindings := ⟨b.entries.filter (·.1 ≠ x)⟩

def insert (b : Bindings) (x : String) (v : Value) : Bindings := ⟨(x, v) :: (b.erase x).entries⟩

/-- A later pair wins over an earlier one of the same name. -/
def insertAll (b : Bindings) (pairs : List (String × Value)) : Bindings :=
  pairs.foldl (fun b (x, v) => b.insert x v) b

def ofPairs (pairs : List (String × Value)) : Bindings := insertAll {} pairs

@[simp] theorem get?_empty (x : String) : get? {} x = none := rfl

@[simp] theorem get?_erase (b : Bindings) (x y : String) :
    (b.erase x).get? y = if y = x then none else b.get? y := by
  by_cases hy : y = x
  · simp [get?, erase, hy]
  · have hp (a : String × Value) : (!decide (a.1 = x) && decide (a.1 = y)) = decide (a.1 = y) := by
      by_cases ha : a.1 = y <;> simp [ha, hy]
    simp [get?, erase, List.find?_filter, hp, hy]

@[simp] theorem get?_insert (b : Bindings) (x y : String) (v : Value) :
    (b.insert x v).get? y = if y = x then some v else b.get? y := by
  by_cases hy : y = x
  · simp [get?, insert, hy]
  · have h := get?_erase b x y
    simp only [hy, if_false] at h ⊢
    simpa [get?, insert, Ne.symm hy] using h

theorem insertAll_append (b : Bindings) (ps qs : List (String × Value)) :
    b.insertAll (ps ++ qs) = (b.insertAll ps).insertAll qs :=
  List.foldl_append

theorem get?_insertAll_eq_none_iff {b : Bindings} {ps : List (String × Value)} {x : String} :
    (b.insertAll ps).get? x = none ↔ b.get? x = none ∧ ∀ p ∈ ps, p.1 ≠ x := by
  induction ps generalizing b with
  | nil => simp [insertAll]
  | cons p ps ih =>
    have h : b.insertAll (p :: ps) = (b.insert p.1 p.2).insertAll ps := rfl
    rw [h, ih, get?_insert]
    by_cases hx : x = p.1
    · simp [hx]
    · simp [hx, Ne.symm hx]

theorem mem_or_get?_of_get?_insertAll {b : Bindings} {ps : List (String × Value)} {x : String}
    {v : Value} (h : (b.insertAll ps).get? x = some v) : (x, v) ∈ ps ∨ b.get? x = some v := by
  induction ps generalizing b with
  | nil => exact .inr h
  | cons p ps ih =>
    rcases ih (b := b.insert p.1 p.2) h with hmem | hget
    · exact .inl (List.mem_cons_of_mem _ hmem)
    · rw [get?_insert] at hget
      by_cases hx : x = p.1
      · rw [if_pos hx] at hget
        cases hget
        exact .inl (hx ▸ List.mem_cons_self)
      · rw [if_neg hx] at hget
        exact .inr hget

theorem get?_insertAll_congr {b b' : Bindings} {x : String} (h : b.get? x = b'.get? x)
    (ps : List (String × Value)) : (b.insertAll ps).get? x = (b'.insertAll ps).get? x := by
  induction ps generalizing b b' with
  | nil => exact h
  | cons p ps ih =>
    have hinsert : (b.insert p.1 p.2).get? x = (b'.insert p.1 p.2).get? x := by
      rw [get?_insert, get?_insert, h]
    exact ih hinsert

end Bindings

end UnitSheet
