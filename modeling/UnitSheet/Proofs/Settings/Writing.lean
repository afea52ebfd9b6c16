import UnitSheet.Proofs.Decimal.Written
import UnitSheet.Settings.Basic

namespace UnitSheet

namespace Datum

/-- A datum that the host does not write with room for `levels` levels: it has more of them, or a
whole number in it has too many digits. -/
inductive UnwritableWithin (host : Host) : (levels : Nat) → Datum → Prop
  | deep (d : Datum) : UnwritableWithin host 0 d
  | integer {levels : Nat} {n : Int} (h : 10 ^ host.digits ≤ n.natAbs) :
      UnwritableWithin host (levels + 1) (.integer n)
  | item {levels : Nat} {items : List Datum} {d : Datum} (hd : d ∈ items)
      (h : UnwritableWithin host levels d) : UnwritableWithin host (levels + 1) (.array items)
  | field {levels : Nat} {fields : List (String × Datum)} {key : String} {d : Datum}
      (hd : (key, d) ∈ fields) (h : UnwritableWithin host levels d) :
      UnwritableWithin host (levels + 1) (.table fields)

def Unwritable (host : Host) (d : Datum) : Prop := UnwritableWithin host host.levels d

variable {host : Host} {levels : Nat} {d : Datum} {text : String}

theorem exists_error_map_iff {ε α β : Type} {m : Except ε α} {f : α → β} :
    (∃ e, (do return f (← m)) = Except.error e) ↔ ∃ e, m = .error e := by
  cases m with
  | error e => exact iff_of_true ⟨e, rfl⟩ ⟨e, rfl⟩
  | ok a => exact iff_of_false (by nofun) (by nofun)

theorem exists_error_map₂_iff {ε α β γ : Type} {m : Except ε α} {ms : Except ε β}
    {f : α → β → γ} : (∃ e, (do let a ← m; return f a (← ms)) = Except.error e) ↔
      (∃ e, m = .error e) ∨ ∃ e, ms = .error e := by
  cases m with
  | error e => exact iff_of_true ⟨e, rfl⟩ (.inl ⟨e, rfl⟩)
  | ok a => exact exists_error_map_iff.trans (or_iff_right (by nofun)).symm

theorem integerText_error_iff (n : Int) :
    (∃ f, integerText host n = .error f) ↔ 10 ^ host.digits ≤ n.natAbs := by
  have hdigits : 0 < host.digits := Nat.lt_of_lt_of_le (by decide) host.le_digits
  have hlength : _ ↔ n.natAbs < 10 ^ host.digits :=
    Nat.length_toDigits_le_iff (by decide) hdigits
  rw [← Nat.not_lt, ← hlength, Nat.not_le, integerText]
  split
  · next h => exact iff_of_true ⟨_, rfl⟩ h
  · next h => exact iff_of_false (by nofun) h

mutual

theorem renderWithin_error_iff : (levels : Nat) → (d : Datum) →
    ((∃ f, renderWithin host levels d = .error f) ↔ UnwritableWithin host levels d)
  | 0, d => iff_of_true ⟨_, by rw [renderWithin]⟩ (.deep d)
  | levels + 1, .null => iff_of_false (by simp [renderWithin]) (by nofun)
  | levels + 1, .boolean b => iff_of_false (by simp [renderWithin]) (by nofun)
  | levels + 1, .float x => iff_of_false (by simp [renderWithin]) (by nofun)
  | levels + 1, .text s => iff_of_false (by simp [renderWithin]) (by nofun)
  | levels + 1, .integer n => by
    rw [renderWithin, integerText_error_iff]
    constructor
    · exact .integer
    · intro h
      cases h with
      | integer h => exact h
  | levels + 1, .array items => by
    rw [renderWithin, exists_error_map_iff, renderItems_error_iff levels items]
    constructor
    · exact fun ⟨d, hd, h⟩ => .item hd h
    · intro h
      cases h with
      | item hd h => exact ⟨_, hd, h⟩
  | levels + 1, .table fields => by
    rw [renderWithin, exists_error_map_iff, renderFields_error_iff levels fields]
    constructor
    · exact fun ⟨key, d, hd, h⟩ => .field hd h
    · intro h
      cases h with
      | field hd h => exact ⟨_, _, hd, h⟩

theorem renderItems_error_iff : (levels : Nat) → (ds : List Datum) →
    ((∃ f, renderItems host levels ds = .error f) ↔
      ∃ d ∈ ds, UnwritableWithin host levels d)
  | _, [] => iff_of_false (by simp [renderItems]) (by simp)
  | levels, d :: ds => by
    rw [renderItems, exists_error_map₂_iff, renderWithin_error_iff levels d,
      renderItems_error_iff levels ds]
    simp only [List.mem_cons, exists_eq_or_imp]

theorem renderFields_error_iff : (levels : Nat) → (fields : List (String × Datum)) →
    ((∃ f, renderFields host levels fields = .error f) ↔
      ∃ key d, (key, d) ∈ fields ∧ UnwritableWithin host levels d)
  | _, [] => iff_of_false (by simp [renderFields]) (by simp)
  | levels, (key, d) :: fields => by
    rw [renderFields, exists_error_map₂_iff, renderWithin_error_iff levels d,
      renderFields_error_iff levels fields]
    constructor
    · rintro (h | ⟨key', d', hd, h⟩)
      · exact ⟨key, d, List.mem_cons_self, h⟩
      · exact ⟨key', d', List.mem_cons_of_mem _ hd, h⟩
    · rintro ⟨key', d', hd, h⟩
      rcases List.mem_cons.mp hd with heq | hd
      · cases heq
        exact .inl h
      · exact .inr ⟨key', d', hd, h⟩

end

theorem render_error_iff : (∃ f, d.render host = .error f) ↔ d.Unwritable host :=
  renderWithin_error_iff host.levels d

theorem not_unwritable_of_render (hr : d.render host = .ok text) : ¬ d.Unwritable host := by
  intro h
  obtain ⟨f, hf⟩ := render_error_iff.mpr h
  rw [hr] at hf
  cases hf

/-- The text of a datum, up to what stands between brackets. -/
inductive Shows : Datum → String → Prop
  | null : Shows .null "None"
  | boolean (b : Bool) : Shows (.boolean b) (if b then "True" else "False")
  | integer (n : Int) : Shows (.integer n) (toString n)
  | float (x : Float) : Shows (.float x) (shortestText x)
  | text (s : String) : Shows (.text s) (Text.quoted s)
  | array (items : List Datum) (inner : String) : Shows (.array items) ("[" ++ inner ++ "]")
  | table (fields : List (String × Datum)) (inner : String) :
      Shows (.table fields) ("\x7b" ++ inner ++ "\x7d")

theorem shows_of_renderWithin (h : renderWithin host levels d = .ok text) : Shows d text := by
  cases levels with
  | zero =>
    rw [renderWithin] at h
    cases h
  | succ levels =>
    cases d with
    | null | boolean | float | text =>
      rw [renderWithin] at h
      cases h
      constructor
    | integer n =>
      rw [renderWithin, integerText] at h
      split at h
      · cases h
      · cases h
        constructor
    | array items =>
      rw [renderWithin] at h
      cases hitems : renderItems host levels items with
      | error f =>
        rw [hitems] at h
        cases h
      | ok texts =>
        rw [hitems] at h
        cases h
        constructor
    | table fields =>
      rw [renderWithin] at h
      cases hfields : renderFields host levels fields with
      | error f =>
        rw [hfields] at h
        cases h
      | ok texts =>
        rw [hfields] at h
        cases h
        constructor

theorem shows_of_render (h : d.render host = .ok text) : Shows d text := shows_of_renderWithin h

end Datum

end UnitSheet
