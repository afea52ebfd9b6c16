import UnitSheet.Proofs.Expr.Inventory
import UnitSheet.Proofs.Sheet.Settle

namespace UnitSheet

namespace Expr

variable {e c : Expr} {x : String}

def assignsNothing (e : Expr) : Bool := e.nodes.all (·.target?.isNone)

def isCall : Expr → Bool
  | call _ _ => true
  | _ => false

def callsNothing (e : Expr) : Bool := e.nodes.all (!·.isCall)

theorem not_assigns (h : e.assignsNothing = true) : ¬ e.Assigns x := by
  intro ⟨c, hc, hx⟩
  have hnone := List.all_eq_true.mp h c (mem_nodes.mpr hc)
  rw [hx] at hnone
  cases hnone

theorem not_assignsBelow (h : e.children.all assignsNothing = true) : ¬ e.AssignsBelow x :=
  fun ⟨c, hc, hx⟩ => not_assigns (List.all_eq_true.mp h c hc) hx

theorem not_contains_call {f : String} {args : List Expr} (h : e.callsNothing = true) :
    ¬ e.Contains (.call f args) := by
  intro hc
  cases List.all_eq_true.mp h _ (mem_nodes.mpr hc)

end Expr

namespace Sheet

open UnitSheet.Computation UnitSheet.Frame Plan

variable {slots : List Slot} {slot : Slot} {s t u : Sheet} {i j d : Nat} {e : Expr} {v : Value}
variable {x : String}

/-- A function body that a batch calls. -/
inductive CallsBody (slots : List Slot) (s : Sheet) : Expr → Prop
  | intro {i slot e t f g h} (ht : Turn slots s i slot e t) (hf : Begins slot.item e t f)
      (hg : Reaches f g) (hc : Calls g h) : CallsBody slots s h.expr

/-- A batch assigns to a name only at the roots of its expressions: neither below them, nor in
conversion units, nor in the functions that it calls. -/
structure AssignsAtRoots (slots : List Slot) (s : Sheet) (x : String) : Prop where
  slot : ∀ slot ∈ slots, ∀ e, slot.expr? = some e → ¬ e.AssignsBelow x
  conversion : ∀ slot ∈ slots, ∀ c, isBlankText slot.item.conversion = false →
    Expr.parse slot.item.conversion s.nesting = .ok c → ¬ c.Assigns x
  body : ∀ b, CallsBody slots s b → ¬ b.Assigns x

def conversion? (s : Sheet) (slot : Slot) : Option Expr :=
  if isBlankText slot.item.conversion then none else
    (Expr.parse slot.item.conversion s.nesting).toOption

theorem conversion?_eq_some {c : Expr} (hb : isBlankText slot.item.conversion = false)
    (hc : Expr.parse slot.item.conversion s.nesting = .ok c) : s.conversion? slot = some c := by
  rw [conversion?, hb, hc]
  rfl

/-- The expression of a slot assigns nothing below its root, and the conversion unit nothing at
all. -/
def isFlat (s : Sheet) (slot : Slot) : Bool :=
  (slot.expr?.all (·.children.all Expr.assignsNothing)) &&
    (s.conversion? slot).all Expr.assignsNothing

def callsNothing (s : Sheet) (slot : Slot) : Bool :=
  slot.expr?.all Expr.callsNothing && (s.conversion? slot).all Expr.callsNothing

theorem isFlat_expr (h : s.isFlat slot = true) (he : slot.expr? = some e) : ¬ e.AssignsBelow x := by
  rw [isFlat, Bool.and_eq_true, he] at h
  exact Expr.not_assignsBelow h.1

theorem isFlat_conversion {c : Expr} (h : s.isFlat slot = true)
    (hb : isBlankText slot.item.conversion = false)
    (hc : Expr.parse slot.item.conversion s.nesting = .ok c) : ¬ c.Assigns x := by
  rw [isFlat, Bool.and_eq_true, conversion?_eq_some hb hc] at h
  exact Expr.not_assigns h.2

theorem defines_iff :
    Defines (slots.map Slot.slotNames) j x ↔ ∃ slot, slots[j]? = some slot ∧
      slot.target = some x := by
  rw [Defines, List.getElem?_map, Option.bind_map, Option.bind_eq_some_iff]
  rfl

theorem exists_slot_of_defines (h : Defines (slots.map Slot.slotNames) j x) :
    ∃ slot e, slots[j]? = some slot ∧ slot.expr? = some e ∧ e.target? = some x := by
  obtain ⟨slot, hs, ht⟩ := defines_iff.mp h
  obtain ⟨e, he, hx⟩ := Option.bind_eq_some_iff.mp ht
  exact ⟨slot, e, hs, he, hx⟩

theorem definesAnswer_of_defines (h : Defines (slots.map Slot.slotNames) j answerName) :
    definesAnswer slots = true := by
  obtain ⟨slot, hs, ht⟩ := defines_iff.mp h
  exact List.any_eq_true.mpr ⟨slot, List.mem_of_getElem? hs, by simpa using ht⟩

theorem Turn.conversion_parse {c : Expr} (ht : Turn slots s i slot e t)
    (hc : Converts slot.item e t u c) :
    isBlankText slot.item.conversion = false ∧ Expr.parse slot.item.conversion s.nesting =
      .ok c := by
  obtain ⟨hv, hb, hp⟩ := hc
  have hscope := evaluate_sameScope e t
  rw [hv] at hscope
  rw [hscope.nesting, ht.sameScope.nesting] at hp
  exact ⟨hb, hp⟩

namespace AssignsAtRoots

variable {f g : Frame}

theorem inside_ne (h : AssignsAtRoots slots s x) (ht : Turn slots s i slot e t)
    (hg : Inside (t.frame e) g) : g.expr.target? ≠ some x :=
  Inside.target_ne hg (h.slot slot (List.mem_of_getElem? ht.slot_eq) e ht.expr_eq) fun _ _ hk hc =>
    h.body _ (.intro ht .expression hk hc)

theorem conversion_ne {c : Expr} (h : AssignsAtRoots slots s x) (ht : Turn slots s i slot e t)
    (hc : Converts slot.item e t u c) (hg : Reaches (u.frame c) g) : g.expr.target? ≠ some x := by
  obtain ⟨hb, hp⟩ := ht.conversion_parse hc
  refine Reaches.target_ne hg ?_ fun _ _ hk hl => h.body _ (.intro ht (.conversion hc) hk hl)
  exact h.conversion slot (List.mem_of_getElem? ht.slot_eq) c hb hp

theorem reaches_ne (h : AssignsAtRoots slots s x) (ht : Turn slots s i slot e t)
    (hx : e.target? ≠ some x) (hf : Begins slot.item e t f) (hg : Reaches f g) :
    g.expr.target? ≠ some x := by
  cases hf with
  | expression =>
    rcases hg.cases_head with rfl | ⟨k, hk, hkg⟩
    · exact hx
    · exact h.inside_ne ht (.head' hk hkg)
  | conversion hc => exact h.conversion_ne ht hc hg

theorem settle_get? (h : AssignsAtRoots slots s x) (ht : Turn slots s i slot e t)
    (hx : e.target? ≠ some x) (results : List Result) :
    (settle slot e i results t).2.assigned.get? x = t.assigned.get? x := by
  rw [(settle_alike slot e i results t).assigned]
  exact evaluateParsed_assigned (I := fun b => b.get? x = t.assigned.get? x) rfl fun f hf g hg =>
    keeps_get? (h.reaches_ne ht hx hf hg)

theorem settle_target (h : AssignsAtRoots slots s x) (ht : Turn slots s i slot e t)
    (hx : e.target? = some x) (hv : evaluate e t = (.ok v, u)) (results : List Result) :
    (settle slot e i results t).2.assigned.get? x = some v := by
  rw [(settle_alike slot e i results t).assigned]
  refine evaluateParsed_invariant (J := fun t => t.assigned.get? x = some v)
    (fun _ _ ha ht => ha.assigned ▸ ht) ?_ fun t' c hc ht' => ?_
  · rw [hv]
    exact evaluate_target hv hx
  · exact (run_get? fun g hg => h.conversion_ne ht hc hg).trans ht'

end AssignsAtRoots

theorem assignsAtRoots_of_isFlat (hflat : ∀ slot ∈ slots, s.isFlat slot = true)
    (hcalls : ∀ slot ∈ slots, s.callsNothing slot = true) (x : String) :
    AssignsAtRoots slots s x where
  slot slot hs e he := isFlat_expr (hflat slot hs) he
  conversion slot hs c hb hc := isFlat_conversion (hflat slot hs) hb hc
  body := by
    intro _ ⟨ht, hf, hg, hcall⟩
    have hnothing := hcalls _ (List.mem_of_getElem? ht.slot_eq)
    rw [callsNothing, Bool.and_eq_true] at hnothing
    refine (Reaches.not_calls hg (fun _ _ => Expr.not_contains_call ?_) _ hcall).elim
    cases hf with
    | expression =>
      rw [ht.expr_eq] at hnothing
      exact hnothing.1
    | conversion hc =>
      obtain ⟨hb, hp⟩ := ht.conversion_parse hc
      rw [conversion?_eq_some hb hp] at hnothing
      exact hnothing.2

theorem AssignsAtRoots.settleAll_get? (h : AssignsAtRoots slots s x) {front back : List Nat}
    {results : List Result} (hp : front ++ back <+: (s.plan slots).order)
    (hback : ∀ j ∈ back, ¬ Defines (slots.map Slot.slotNames) j x)
    (hanswer : x = answerName → definesAnswer slots = true)
    (hr : progress slots s front = (.ok results, t)) :
    (settleAll slots (s.assigned.get? answerName) (definesAnswer slots) back results
    t).2.assigned.get? x = t.assigned.get? x := by
  refine foldlM_invariant (I := fun u : Sheet => u.assigned.get? x = t.assigned.get? x) rfl
    fun before j r u hj hrun hu => ?_
  cases hat : slotAt? slots j with
  | none =>
    rw [settleNext_none hat]
    exact hu
  | some p =>
    obtain ⟨slot, e⟩ := p
    obtain ⟨hs, he⟩ := slotAt?_eq_some.mp hat
    have hbefore : (front ++ before) ++ [j] <+: (s.plan slots).order := by
      rw [List.append_assoc]
      exact ((List.prefix_append_right_inj front).mpr hj).trans hp
    have hturn := Turn.intro hbefore (progress_append.mpr ⟨results, t, hr, hrun⟩) hs he
    have hne : e.target? ≠ some x := fun hx =>
      hback j (hj.subset (by simp)) (defines_iff.mpr ⟨slot, hs, by rw [Slot.target, he]; exact hx⟩)
    rw [settleNext_some hs he, h.settle_get? hturn hne, readyFor_get? slot _ _ u hanswer]
    exact hu

/-- Behind a definition that is evaluated, and before the next one of the name, the name has its
value. -/
theorem AssignsAtRoots.value_between (h : AssignsAtRoots slots s x) {front back : List Nat}
    {results : List Result} (hp : front ++ d :: back <+: (s.plan slots).order)
    (hback : ∀ j ∈ back, ¬ Defines (slots.map Slot.slotNames) j x)
    (hd : Defines (slots.map Slot.slotNames) d x)
    (hr : progress slots s (front ++ d :: back) = (.ok results, u)) :
    ∃ source ed td, Turn slots s d source ed td ∧ ed.target? = some x ∧
      ∀ v w, evaluate ed td = (.ok v, w) → u.assigned.get? x = some v := by
  obtain ⟨source, ed, hs, he, hx⟩ := exists_slot_of_defines hd
  have hanswer : x = answerName → definesAnswer slots = true := fun hans =>
    definesAnswer_of_defines (hans ▸ hd)
  have hsplit : front ++ d :: back = (front ++ [d]) ++ back := by
    rw [List.append_assoc, List.singleton_append]
  rw [hsplit] at hp hr
  obtain ⟨r₁, t₁, h₁, hend⟩ := progress_append.mp hr
  obtain ⟨r₀, t₀, h₀, hdone⟩ := progress_append.mp h₁
  have hfront : front ++ [d] <+: (s.plan slots).order := (List.prefix_append _ _).trans hp
  have hturn := Turn.intro hfront h₀ hs he
  refine ⟨source, ed, _, hturn, hx, fun v w hv => ?_⟩
  have hkept := h.settleAll_get? hp hback hanswer h₁
  rw [hend] at hkept
  rw [settleAll, List.foldlM_cons, bind_eq_ok_iff] at hdone
  obtain ⟨r, t, hdone, hnil⟩ := hdone
  cases hnil
  have hstored := h.settle_target hturn hx hv r₀
  rw [settleNext_some hs he] at hdone
  rw [hdone] at hstored
  exact hkept.trans hstored

/-- In a batch without cycles a reader of a name sees the nearest definition before it, or else the
first one behind it: that is the last one to run before the reader, and what the reader reads is its
value. -/
theorem acyclic_source_read (slots : List Slot) (s : Sheet) (i : Nat) (x : String)
    (h : Acyclic (edges s.constants (slots.map Slot.slotNames)))
    (hx : x ∈ reads (slots.map Slot.slotNames) i) (hc : s.constants.contains x = false)
    (hother : ∃ j, j ≠ i ∧ Defines (slots.map Slot.slotNames) j x) :
    ∃ d front back after, IsSource (slots.map Slot.slotNames) x i d ∧
      (s.plan slots).order = front ++ d :: back ++ i :: after ∧
      (∀ j ∈ back, ¬ Defines (slots.map Slot.slotNames) j x) ∧
      (AssignsAtRoots slots s x → ∀ slot e t, Turn slots s i slot e t →
        ∃ source ed td, Turn slots s d source ed td ∧
          ∀ v u, evaluate ed td = (.ok v, u) → u.assigned.get? x = some v ∧
            ∀ g, Reaches (t.frame e) g → g.expr.head? = some x → g.scope.locals.get? x = none →
              g.scope.get? g.assigned x = some v) := by
  obtain ⟨j, hj, hdef⟩ := hother
  obtain ⟨d, hd⟩ := exists_isSource hdef hj
  obtain ⟨before, after, ho⟩ := List.append_of_mem (mem_order.mpr (lt_of_mem_reads hx))
  obtain ⟨front, back, rfl, hback⟩ := h.source_last hd hx hc ho
  refine ⟨d, front, back, after, hd, ho, hback, fun hroots slot e t ht => ?_⟩
  have hscope := ht.sameScope
  cases ht with
  | @intro before results t₀ hp hr hs he =>
    obtain rfl := before_unique hp ho
    have hprefix : front ++ d :: back <+: (s.plan slots).order := (List.prefix_append _ _).trans hp
    obtain ⟨source, ed, td, hturn, htarget, hsource⟩ :=
      hroots.value_between hprefix hback hd.defines hr
    refine ⟨source, ed, td, hturn,
      fun v u hv => ⟨evaluate_target hv htarget, fun g hg _ hlocal => ?_⟩⟩
    have hanswer : x = answerName → definesAnswer slots = true := fun hans =>
      definesAnswer_of_defines (hans ▸ hdef)
    -- The reader finds the value on its sheet, and nothing inside its evaluation assigns to the
    -- name.
    have hstart := (readyFor_get? slot (results.take i) (s.assigned.get? answerName) t₀
      hanswer).trans (hsource v u hv)
    have hread := Reaches.get? hg fun k hk => hroots.inside_ne (.intro hp hr hs he) hk
    have hconst : g.scope.constants.get? x = none := by
      rw [Reaches.constants_eq hg]
      change Bindings.get? (Sheet.constants _) x = none
      rw [hscope.constants]
      exact Option.not_isSome_iff_eq_none.mp (by simpa [Bindings.contains] using hc)
    rw [Scope.get?, hlocal, hconst, hread]
    exact hstart

def readerFirst : List Slot :=
  [⟨{ value := "y = x" }, .ok (.assign "y" (.name "x"))⟩,
   ⟨{ value := "x = 1" }, .ok (.assign "x" (.literal { value := 1, text := "1" }))⟩,
   ⟨{ value := "x = 2" }, .ok (.assign "x" (.literal { value := 2, text := "2" }))⟩]

theorem readerFirst_acyclic : Acyclic (edges {} (readerFirst.map Slot.slotNames)) :=
  Acyclic.of_rank (fun i => if i = 0 then 1 else if i = 1 then 0 else 2) (by decide +kernel)

theorem readerFirst_assignsAtRoots : AssignsAtRoots readerFirst {} "x" :=
  assignsAtRoots_of_isFlat (by decide +kernel) (by decide +kernel) "x"

theorem readerFirst_source_read : AssignsAtRoots readerFirst {} "x" ∧
    ∃ d front back after, IsSource (readerFirst.map Slot.slotNames) "x" 0 d ∧
      (Sheet.plan {} readerFirst).order = front ++ d :: back ++ 0 :: after ∧
      (∀ j ∈ back, ¬ Defines (readerFirst.map Slot.slotNames) j "x") ∧
      (AssignsAtRoots readerFirst {} "x" → ∀ slot e t, Turn readerFirst {} 0 slot e t →
        ∃ source ed td, Turn readerFirst {} d source ed td ∧
          ∀ v u, evaluate ed td = (.ok v, u) → u.assigned.get? "x" = some v ∧
            ∀ g, Reaches (t.frame e) g → g.expr.head? = some "x" → g.scope.locals.get? "x" = none →
              g.scope.get? g.assigned "x" = some v) := by
  refine ⟨readerFirst_assignsAtRoots,
    acyclic_source_read readerFirst {} 0 "x" readerFirst_acyclic ?_ rfl ?_⟩
  · decide +kernel
  · exact ⟨1, by decide, by rfl⟩

end Sheet

end UnitSheet
