import Mathlib.Algebra.Group.Prod
import Mathlib.Algebra.Order.Group.Multiset
import Mathlib.Tactic.Abel
import UnitSheet.Proofs.Expr.Nodes
import UnitSheet.Proofs.Expr.Runs

namespace UnitSheet

/-- Literals, names and marks with their multiplicities. -/
abbrev Inventory := Multiset Literal × Multiset String × Multiset Token.Kind

namespace Inventory

def ofLists (literals : List Literal) (names : List String) (marks : List Token.Kind) : Inventory :=
  (literals, names, marks)

def literal (l : Literal) : Inventory := ({l}, 0, 0)

def name (x : String) : Inventory := (0, {x}, 0)

def mark (kind : Token.Kind) : Inventory := (0, 0, {kind})

end Inventory

namespace Token

/-- What a token brings into an expression. -/
def inventory (t : Token) : Inventory :=
  match t.kind with
  | .number => .literal t.literal
  | .name => .name (Name.ofText t.text)
  | .operator op => .mark (.operator op)
  | .factorial => .mark .factorial
  | .equal => .mark .equal
  | .fraction => .mark (.operator (.arithmetic .div))
  | _ => 0

end Token

namespace UnaryOp

/-- The kind of the token that the operation is written with. -/
def mark : UnaryOp → Token.Kind
  | neg => .operator (.arithmetic .sub)
  | pos => .operator (.arithmetic .add)
  | factorial => .factorial

end UnaryOp

namespace Expr

def literal? : Expr → Option Literal
  | literal l => some l
  | _ => none

def ownNames : Expr → List String
  | name x => [x]
  | call f _ => [f]
  | assign x _ => [x]
  | define f params _ => f :: params
  | _ => []

def mark? : Expr → Option Token.Kind
  | binary op _ _ => some (.operator op)
  | unary op _ => some op.mark
  | assign _ _ | define _ _ _ => some .equal
  | _ => none

def own (e : Expr) : Inventory := .ofLists e.literal?.toList e.ownNames e.mark?.toList

def inventory (e : Expr) : Inventory := (e.nodes.map own).sum

def inventoryAll (es : List Expr) : Inventory := (es.map inventory).sum

theorem inventory_eq (e : Expr) : e.inventory = e.own + inventoryAll e.children := by
  have hall (es : List Expr) : ((es.flatMap nodes).map own).sum = inventoryAll es := by
    induction es with
    | nil => rfl
    | cons e es ih =>
      rw [List.flatMap_cons, List.map_append, List.sum_append, ih, inventoryAll, inventoryAll,
        List.map_cons, List.sum_cons]
      rfl
  rw [inventory, nodes_eq, List.map_cons, List.sum_cons, hall]

theorem inventoryAll_cons (e : Expr) (es : List Expr) :
    inventoryAll (e :: es) = e.inventory + inventoryAll es := by
  rw [inventoryAll, List.map_cons, List.sum_cons, inventoryAll]

theorem inventoryAll_append (es fs : List Expr) :
    inventoryAll (es ++ fs) = inventoryAll es + inventoryAll fs := by
  rw [inventoryAll, List.map_append, List.sum_append, inventoryAll, inventoryAll]

theorem inventoryAll_singleton (e : Expr) : inventoryAll [e] = e.inventory := by
  rw [inventoryAll_cons, inventoryAll, List.map_nil, List.sum_nil, add_zero]

theorem inventory_literal (l : Literal) : (literal l).inventory = .literal l := by
  rw [inventory_eq]
  exact add_zero _

theorem inventory_name (x : String) : (name x).inventory = .name x := by
  rw [inventory_eq]
  exact add_zero _

theorem inventory_binary (op : BinaryOp) (left right : Expr) :
    (binary op left right).inventory = .mark
    (.operator op) + (left.inventory + right.inventory) := by
  rw [inventory_eq, children, inventoryAll_cons, inventoryAll_singleton]
  rfl

theorem inventory_unary (op : UnaryOp) (operand : Expr) :
    (unary op operand).inventory = .mark op.mark + operand.inventory := by
  rw [inventory_eq, children, inventoryAll_singleton]
  rfl

theorem inventory_builtin (f : Builtin) (args : List Expr) (special : Option Expr) :
    (builtin f args special).inventory = inventoryAll args + inventoryAll special.toList := by
  rw [inventory_eq, children, inventoryAll_append]
  exact zero_add _

theorem inventory_call (f : String) (args : List Expr) :
    (call f args).inventory = .name f + inventoryAll args := by
  rw [inventory_eq]
  rfl

theorem inventory_list (items : List Expr) : (list items).inventory = inventoryAll items := by
  rw [inventory_eq]
  exact zero_add _

theorem inventoryAll_names (params : List String) :
    inventoryAll (params.map name) = ((0, (params : Multiset String), 0) : Inventory) := by
  induction params with
  | nil => rfl
  | cons x params ih =>
    rw [List.map_cons, inventoryAll_cons, inventory_name, ih]
    exact Prod.ext (add_zero _) (Prod.ext (Multiset.singleton_add x params) (add_zero _))

theorem inventory_assign (x : String) (value : Expr) :
    (assign x value).inventory = (name x).inventory + .mark .equal + value.inventory := by
  rw [inventory_eq, inventory_name, children, inventoryAll_singleton]
  rfl

theorem inventory_define (f : String) (params : List String) (body : Expr) :
    (define f params body).inventory =
      (call f (params.map name)).inventory + .mark .equal + body.inventory := by
  have hown : (define f params body).own =
      .name f + ((0, (params : Multiset String), 0) : Inventory) + .mark .equal := by
    refine Prod.ext rfl (Prod.ext ?_ rfl)
    exact ((add_zero _).trans (Multiset.singleton_add f params)).symm
  rw [inventory_eq, inventory_call, inventoryAll_names, hown, children, inventoryAll_singleton]

end Expr

namespace Token

variable {stage : Stage} {t : Token} {ts : List Token}

/-- What the tokens bring into an expression, the runs of digits among them cut. -/
def stock (stage : Stage) (ts : List Token) : Inventory := ((cutRuns stage ts).map inventory).sum

theorem stock_nil : stock stage [] = 0 :=
  rfl

theorem stock_cons (h : (stage.cuts && t.isDigitRun) = false) :
    stock stage (t :: ts) = t.inventory + stock (stage.next t.kind) ts := by
  rw [stock, cutRuns_cons h]
  exact List.sum_cons

theorem stock_split {digit : Literal} {rest : Token} (hcuts : stage.cuts = true)
    (hrun : t.isDigitRun = true) (hsplit : t.splitDigit = .ok (digit, rest)) :
    stock stage (t :: ts) = .literal digit + stock .plain (rest :: ts) := by
  obtain ⟨hdigit, hrest⟩ := Parser.splitDigit_eq_ok hsplit
  have hplain : stock .plain (rest :: ts) = rest.inventory + stock .plain ts := by
    rw [stock_cons rfl, hrest]
    rfl
  have hnumber : (digitToken t digit).inventory = .literal digit :=
    congrArg Inventory.literal hdigit.symm
  rw [stock, cutRuns_split hcuts hrun hsplit, hplain, List.map_cons, List.map_cons, List.sum_cons,
    List.sum_cons, hnumber, stock]

end Token

namespace Token

def literal? (t : Token) : Option Literal := if t.kind = .number then some t.literal else none

def name? (t : Token) : Option String := if t.kind = .name then some (Name.ofText t.text) else none

namespace Kind

variable {kind kind' : Kind}

def mark? : Kind → Option Kind
  | operator op => some (operator op)
  | factorial => some factorial
  | equal => some equal
  | fraction => some (operator (.arithmetic .div))
  | _ => none

theorem mark?_eq_some (h : kind'.mark? = some kind) :
    kind' = kind ∨ kind' = fraction ∧ kind = operator (.arithmetic .div) := by
  cases kind' with
  | operator op => exact .inl (Option.some.inj h)
  | factorial => exact .inl (Option.some.inj h)
  | equal => exact .inl (Option.some.inj h)
  | fraction => exact .inr ⟨rfl, (Option.some.inj h).symm⟩
  | _ => cases h

theorem mark?_eq_some_iff (hkind : kind.mark? = some kind)
    (hdiv : kind ≠ operator (.arithmetic .div)) : kind'.mark? = some kind ↔ kind' = kind := by
  constructor
  · intro h
    exact (mark?_eq_some h).resolve_right fun h => hdiv h.2
  · rintro rfl
    exact hkind

end Kind

theorem inventory_eq (t : Token) :
    t.inventory = .ofLists t.literal?.toList t.name?.toList t.kind.mark?.toList := by
  rw [inventory, literal?, name?]
  cases t.kind <;> rfl

theorem filterMap_literal (tokens : List Token) :
    tokens.filterMap literal? = (tokens.filter (·.kind = .number)).map literal := by
  rw [← List.filterMap_eq_map', List.filterMap_filter]
  simp only [decide_eq_true_eq]
  rfl

theorem flatMap_name (tokens : List Token) :
    tokens.flatMap (·.name?.toList) = (tokens.filter (·.kind = .name)).map
      (Name.ofText ·.text) := by
  rw [← List.filterMap_eq_flatMap_toList, ← List.filterMap_eq_map', List.filterMap_filter]
  simp only [decide_eq_true_eq]
  rfl

end Token

namespace Inventory

theorem sum_eq {α : Type} {f : α → Inventory} {literal? : α → Option Literal}
    {names : α → List String}
    {mark? : α → Option Token.Kind}
    (h : ∀ a, f a = .ofLists (literal? a).toList (names a) (mark? a).toList)
    (l : List α) : (l.map f).sum = .ofLists (l.filterMap literal?) (l.flatMap names)
    (l.filterMap mark?) := by
  induction l with
  | nil => rfl
  | cons a l ih =>
    rw [List.map_cons, List.sum_cons, ih, h, List.filterMap_cons, List.flatMap_cons,
      List.filterMap_cons]
    cases literal? a <;> cases mark? a <;> rfl

theorem nsmul_mark (k : Nat) (kind : Token.Kind) :
    k • mark kind = ofLists [] [] (List.replicate k kind) :=
  Prod.ext (nsmul_zero k) (Prod.ext (nsmul_zero k) (Multiset.nsmul_singleton kind k))

theorem perm_of_eq {literals literals' : List Literal} {names names' : List String}
    {marks marks' : List Token.Kind}
    (h : ofLists literals names marks = ofLists literals' names' marks') :
    literals.Perm literals' ∧ names.Perm names' ∧ marks.Perm marks' := by
  obtain ⟨hliterals, h⟩ := Prod.ext_iff.mp h
  obtain ⟨hnames, hmarks⟩ := Prod.ext_iff.mp h
  exact ⟨Multiset.coe_eq_coe.mp hliterals, Multiset.coe_eq_coe.mp hnames,
    Multiset.coe_eq_coe.mp hmarks⟩

end Inventory

namespace Expr

def isBinary (op : BinaryOp) : Expr → Bool
  | binary op' _ _ => op' = op
  | _ => false

def isUnary (op : UnaryOp) : Expr → Bool
  | unary op' _ => op' = op
  | _ => false

def isAssign : Expr → Bool
  | assign _ _ => true
  | _ => false

def isDefine : Expr → Bool
  | define _ _ _ => true
  | _ => false

/-- An expression holds the literals and the names of some tokens, and each of its operations is
written with an operator token of its own; a product may go without. -/
structure Conserves (e : Expr) (tokens : List Token) : Prop where
  literals : (e.nodes.filterMap literal?).Perm
    ((tokens.filter (·.kind = .number)).map Token.literal)
  names : (e.nodes.flatMap ownNames).Perm
    ((tokens.filter (·.kind = .name)).map (Name.ofText ·.text))
  minus : tokens.countP (·.kind = .operator (.arithmetic .sub)) =
    e.nodes.countP (isBinary (.arithmetic .sub)) + e.nodes.countP (isUnary .neg)
  plus : tokens.countP (·.kind = .operator (.arithmetic .add)) =
    e.nodes.countP (isBinary (.arithmetic .add)) + e.nodes.countP (isUnary .pos)
  division : tokens.countP (·.kind = .operator (.arithmetic .div)) +
    tokens.countP (·.kind = .fraction) = e.nodes.countP (isBinary (.arithmetic .div))
  power : tokens.countP (·.kind = .operator (.arithmetic .pow)) =
    e.nodes.countP (isBinary (.arithmetic .pow))
  factorial : tokens.countP (·.kind = .factorial) = e.nodes.countP (isUnary .factorial)
  comparison : ∀ op,
    tokens.countP (·.kind = .operator (.comparison op)) = e.nodes.countP (isBinary (.comparison op))
  equal : tokens.countP (·.kind = .equal) = e.nodes.countP isAssign + e.nodes.countP isDefine
  times : tokens.countP (·.kind = .operator (.arithmetic .mul)) ≤
    e.nodes.countP (isBinary (.arithmetic .mul))

variable {e : Expr} {op : BinaryOp}

theorem mark?_eq_operator_iff :
    e.mark? = some (.operator op) ↔ e.isBinary op = true ∨ ∃ u, u.mark = .operator op ∧
      e.isUnary u = true := by
  cases e <;> simp [mark?, isBinary, isUnary]

theorem mark?_eq_factorial_iff : e.mark? = some .factorial ↔ e.isUnary .factorial = true := by
  cases e with
  | unary u a => cases u <;> simp [mark?, isUnary, UnaryOp.mark]
  | _ => simp [mark?, isUnary]

theorem mark?_eq_equal_iff : e.mark? = some .equal ↔ e.isAssign = true ∨ e.isDefine = true := by
  cases e with
  | unary u a => cases u <;> simp [mark?, isAssign, isDefine, UnaryOp.mark]
  | _ => simp [mark?, isAssign, isDefine]

theorem countP_eq_add {α : Type} {p q r : α → Bool} {l : List α}
    (hor : ∀ a, p a = true ↔ q a = true ∨ r a = true)
    (hand : ∀ a, q a = true → r a = false) : l.countP p = l.countP q + l.countP r := by
  induction l with
  | nil => rfl
  | cons a l ih =>
    rw [List.countP_cons, List.countP_cons, List.countP_cons, ih]
    by_cases hq : q a = true
    · rw [if_pos ((hor a).mpr (.inl hq)), if_pos hq, hand a hq, if_neg Bool.false_ne_true]
      omega
    · have hp : p a = true ↔ r a = true := (hor a).trans (or_iff_right hq)
      rw [if_neg hq, if_congr hp rfl rfl]
      omega

theorem countP_binary (h : ∀ u : UnaryOp, u.mark ≠ .operator op) (nodes : List Expr) :
    nodes.countP (·.mark? == some (.operator op)) = nodes.countP (isBinary op) := by
  apply List.countP_congr
  intro e _
  rw [beq_iff_eq, mark?_eq_operator_iff]
  exact or_iff_left fun ⟨u, hu, _⟩ => h u hu

theorem countP_binary_unary {u : UnaryOp} (h : ∀ u' : UnaryOp, u'.mark = .operator op ↔ u' = u)
    (nodes : List Expr) :
    nodes.countP (·.mark? == some (.operator op)) = nodes.countP (isBinary op) + nodes.countP
      (isUnary u) := by
  apply countP_eq_add
  · intro e
    simp only [beq_iff_eq, mark?_eq_operator_iff, h, exists_eq_left]
  · intro e he
    cases e with
    | binary op' l r => rfl
    | _ => cases he

theorem countP_factorial (nodes : List Expr) :
    nodes.countP (·.mark? == some .factorial) = nodes.countP (isUnary .factorial) := by
  apply List.countP_congr
  intro e _
  rw [beq_iff_eq, mark?_eq_factorial_iff]

theorem countP_equal (nodes : List Expr) :
    nodes.countP (·.mark? == some .equal) = nodes.countP isAssign + nodes.countP isDefine := by
  apply countP_eq_add
  · intro e
    rw [beq_iff_eq, mark?_eq_equal_iff]
  · intro e he
    cases e with
    | assign x value => rfl
    | _ => cases he

theorem countP_kind (kind : Token.Kind) (hmark : kind.mark? = some kind)
    (hdiv : kind ≠ .operator (.arithmetic .div))
    (tokens : List Token) :
    tokens.countP (·.kind = kind) = tokens.countP (·.kind.mark? == some kind) := by
  apply List.countP_congr
  intro t _
  rw [decide_eq_true_eq, beq_iff_eq, Token.Kind.mark?_eq_some_iff hmark hdiv]

theorem countP_division (tokens : List Token) :
    tokens.countP (·.kind.mark? == some (.operator (.arithmetic .div))) =
      tokens.countP (·.kind = .operator (.arithmetic .div)) + tokens.countP
        (·.kind = .fraction) := by
  apply countP_eq_add
  · intro t
    simp only [beq_iff_eq, decide_eq_true_eq]
    constructor
    · intro ht
      exact (Token.Kind.mark?_eq_some ht).imp_right fun h => h.1
    · rintro (ht | ht) <;> rw [ht, Token.Kind.mark?]
  · intro t ht
    rw [decide_eq_true_eq] at ht
    rw [ht]
    rfl

/-- Equal inventories, up to the marks of `k` products, conserve an expression: each mark is counted
on both sides. -/
theorem conserves_of_inventory {tokens : List Token} {k : Nat}
    (h : (tokens.map Token.inventory).sum + k • Inventory.mark (.operator (.arithmetic .mul)) =
    e.inventory) : e.Conserves tokens := by
  have hown : e.inventory =
      .ofLists (e.nodes.filterMap literal?) (e.nodes.flatMap ownNames) (e.nodes.filterMap mark?) :=
    Inventory.sum_eq (fun _ => rfl) e.nodes
  rw [Inventory.sum_eq Token.inventory_eq, hown, Inventory.nsmul_mark] at h
  obtain ⟨hliterals, hnames, hmarks⟩ := Inventory.perm_of_eq h
  rw [List.append_nil, Token.filterMap_literal] at hliterals
  rw [List.append_nil, Token.flatMap_name] at hnames
  have hcount (kind : Token.Kind) :
      tokens.countP (·.kind.mark? == some kind) +
        (List.replicate k (.operator (.arithmetic .mul))).count kind =
        e.nodes.countP (·.mark? == some kind) := by
    have hperm := hmarks.count_eq kind
    rwa [List.count_append, List.count_filterMap, List.count_filterMap] at hperm
  have hother (kind : Token.Kind) (hne : kind ≠ .operator (.arithmetic .mul)) :
      tokens.countP (·.kind.mark? == some kind) = e.nodes.countP (·.mark? == some kind) := by
    rw [← hcount kind, List.count_replicate, if_neg (by simpa using hne.symm), add_zero]
  have hsame (kind : Token.Kind) (hmark : kind.mark? = some kind)
      (hdiv : kind ≠ .operator (.arithmetic .div)) (hne : kind ≠ .operator (.arithmetic .mul)) :
      tokens.countP (·.kind = kind) = e.nodes.countP (·.mark? == some kind) :=
    (countP_kind kind hmark hdiv tokens).trans (hother kind hne)
  exact {
    literals := hliterals.symm
    names := hnames.symm
    minus := by
      rw [hsame (.operator (.arithmetic .sub)) rfl nofun nofun]
      exact countP_binary_unary (by rintro (_ | _ | _) <;> simp [UnaryOp.mark]) e.nodes
    plus := by
      rw [hsame (.operator (.arithmetic .add)) rfl nofun nofun]
      exact countP_binary_unary (by rintro (_ | _ | _) <;> simp [UnaryOp.mark]) e.nodes
    division := by
      rw [← countP_division, hother (.operator (.arithmetic .div)) nofun]
      exact countP_binary (by rintro (_ | _ | _) <;> nofun) e.nodes
    power := by
      rw [hsame (.operator (.arithmetic .pow)) rfl nofun nofun]
      exact countP_binary (by rintro (_ | _ | _) <;> nofun) e.nodes
    factorial := by
      rw [hsame .factorial rfl nofun nofun]
      exact countP_factorial e.nodes
    comparison := by
      intro op
      rw [hsame (.operator (.comparison op)) rfl nofun nofun]
      exact countP_binary (by rintro (_ | _ | _) <;> nofun) e.nodes
    equal := by
      rw [hsame .equal rfl nofun nofun]
      exact countP_equal e.nodes
    times := by
      rw [← countP_binary (by rintro (_ | _ | _) <;> nofun), ← hcount,
        countP_kind (.operator (.arithmetic .mul)) rfl nofun]
      exact Nat.le_add_right _ _ }

end Expr

end UnitSheet
