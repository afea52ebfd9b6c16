import UnitSheet.Proofs.Evaluation.Frame
import UnitSheet.Proofs.Evaluation.Root

namespace UnitSheet

open UnitSheet.Expr Relation UnitSheet.Computation

variable {n : Nat} {s : Scope} {e a : Expr} {es before : List Expr} {b b' : Bindings} {x : String}
variable {v : Value} {α : Type} {m : Expr → Evaluation α}

/-- The expressions of a list that begin to be evaluated one after another, each with the variables
that it begins with, up to the first one that stops. -/
def started (m : Expr → Evaluation α) : List Expr → Bindings → List (Expr × Bindings)
  | [], _ => []
  | e :: es, b => (e, b) :: match m e b with
    | (.ok _, b') => started m es b'
    | (.error _, _) => []

namespace Frame

def sequence (n : Nat) (s : Scope) (m : Expr → Evaluation α) (es : List Expr) (b : Bindings) :
    List Frame :=
  (started m es b).map fun (e, b) => ⟨n, s, e, b⟩

def body (n : Nat) (s : Scope) : Value → Except Stop (List Value) × Bindings → List Frame
  | .function _ params body, (.ok vs, b) =>
    if vs.length = params.length then [⟨n, s.enter params vs, body, b⟩] else []
  | _, _ => []

/-- The evaluations that an expression begins, in order, with `n` levels of nesting left inside. -/
def entered (n : Nat) (s : Scope) (e : Expr) (b : Bindings) : List Frame :=
  match e with
  | .call x args =>
    match s.get? b x with
    | some callee => sequence n s (evalWithin n s) args b ++ body n s callee
      (args.mapM (evalWithin n s) b)
    | none => []
  | .list items => sequence n s (fun e => evalWithin n s e >>= Evaluation.element) items b
  | .assign x value => if s.constants.contains x then [] else [⟨n, s, value, b⟩]
  | .define _ _ _ => []
  | e => sequence n s (evalWithin n s) e.children b

end Frame

/-- What an expression stores itself when it comes to a result. -/
def Expr.storesOwn (e : Expr) (r : Except Stop Value) : List (String × Value) :=
  match e.target?, r with
  | some x, .ok v => [(x, v)]
  | _, _ => []

/-- The values that are stored, in order: those of the evaluations inside, and then its own. -/
def Expr.logWithin : (levels : Nat) → Scope → Expr → Bindings → List (String × Value)
  | 0, _, _, _ => []
  | n + 1, s, e, b =>
    ((Frame.entered n s e b).flatMap fun f => logWithin n f.scope f.expr f.assigned) ++
      e.storesOwn (evalWithin (n + 1) s e b).1

def Frame.log (f : Frame) : List (String × Value) := logWithin f.levels f.scope f.expr f.assigned

def Frame.logs (n : Nat) (fs : List Frame) : List (String × Value) :=
  fs.flatMap fun f => logWithin n f.scope f.expr f.assigned

theorem started_ok {c : α} (h : m e b = (.ok c, b')) :
    started m (e :: es) b = (e, b) :: started m es b' := by
  simp only [started, h]

theorem started_error {stop : Stop} (h : m e b = (.error stop, b')) :
    started m (e :: es) b = [(e, b)] := by
  simp only [started, h]

theorem started_singleton : started m [e] b = [(e, b)] := by
  rcases h : m e b with ⟨r, b'⟩
  cases r with
  | error stop => exact started_error h
  | ok c => exact started_ok h

theorem mem_started (h : (a, b') ∈ started m es b) :
    ∃ before vs, before ++ [a] <+: es ∧ before.mapM m b = (.ok vs, b') := by
  induction es generalizing b with
  | nil => cases h
  | cons e es ih =>
    rcases he : m e b with ⟨r, c⟩
    cases r with
    | error stop =>
      rw [started_error he] at h
      cases List.mem_singleton.mp h
      exact ⟨[], [], ⟨es, rfl⟩, rfl⟩
    | ok v =>
      rw [started_ok he] at h
      rcases List.mem_cons.mp h with heq | h
      · cases heq
        exact ⟨[], [], ⟨es, rfl⟩, rfl⟩
      · obtain ⟨before, vs, hp, hbefore⟩ := ih h
        refine ⟨e :: before, v :: vs, (List.prefix_cons_inj e).mpr hp, ?_⟩
        rw [List.mapM_cons, bind_ok he, bind_ok hbefore]
        rfl

theorem mem_started_of_reached {vs : List α} (hp : before ++ [a] <+: es)
    (hb : before.mapM m b = (.ok vs, b')) : (a, b') ∈ started m es b := by
  induction before generalizing es b vs with
  | nil =>
    obtain ⟨rest, rfl⟩ := hp
    cases hb
    exact List.mem_cons_self
  | cons e before ih =>
    obtain ⟨rest, rfl⟩ := hp
    rw [List.mapM_cons] at hb
    obtain ⟨v, c, he, hb⟩ := bind_eq_ok_iff.mp hb
    obtain ⟨ws, d, hb, hd⟩ := bind_eq_ok_iff.mp hb
    cases hd
    rw [List.cons_append, List.cons_append, started_ok he]
    exact List.mem_cons_of_mem _ (ih (List.prefix_append _ _) hb)

theorem bind_pure_snd {β γ : Type} (m : Evaluation β) (g : β → γ) (b : Bindings) :
    (m >>= fun a => pure (g a)) b = ((m b).1.map g, (m b).2) := by
  rcases hm : m b with ⟨r, c⟩
  cases r with
  | error stop => exact bind_error hm
  | ok a => exact bind_ok hm

theorem bind_snd_congr {β γ δ : Type} {m : Evaluation β} {f : β → Evaluation γ}
    {g : β → Evaluation δ}
    (h : ∀ a c, (f a c).2 = (g a c).2) : ((m >>= f) b).2 = ((m >>= g) b).2 := by
  rcases hm : m b with ⟨r, c⟩
  cases r with
  | error stop => rw [bind_error hm, bind_error hm]
  | ok a => rw [bind_ok hm, bind_ok hm, h]

theorem bind_snd_of_quiet {β γ : Type} {m : Evaluation β} {f : β → Evaluation γ}
    (h : ∀ a c, (f a c).2 = c) : ((m >>= f) b).2 = (m b).2 := by
  have hpure := bind_snd_congr (m := m) (b := b) (g := pure) h
  rwa [bind_pure] at hpure

theorem mapM_snd_log {l : Expr → Bindings → List (String × Value)}
    (h : ∀ e ∈ es, ∀ b, (m e b).2 = b.insertAll (l e b)) (b : Bindings) :
    (es.mapM m b).2 = b.insertAll ((started m es b).flatMap fun p => l p.1 p.2) := by
  induction es generalizing b with
  | nil => rfl
  | cons e es ih =>
    have hhead := h e List.mem_cons_self b
    rw [List.mapM_cons]
    rcases he : m e b with ⟨r, c⟩
    rw [he] at hhead
    cases r with
    | error stop =>
      rw [bind_error he, started_error he, List.flatMap_singleton]
      exact hhead
    | ok v =>
      have htail := ih (fun e he => h e (List.mem_cons_of_mem _ he)) c
      rw [bind_ok he, started_ok he, bind_pure_snd, List.flatMap_cons, Bindings.insertAll_append,
        ← hhead]
      exact htail

namespace Frame

variable {f g : Frame} {w : String × Value}

theorem mem_sequence (h : g ∈ sequence n s m es b) : ∃ before a vs b', before ++ [a] <+: es ∧
    before.mapM m b = (.ok vs, b') ∧ g = ⟨n, s, a, b'⟩ := by
  obtain ⟨⟨a, b'⟩, hmem, rfl⟩ := List.mem_map.mp h
  obtain ⟨before, vs, hp, hbefore⟩ := mem_started hmem
  exact ⟨before, a, vs, b', hp, hbefore, rfl⟩

theorem mem_body {callee : Value} {r : Except Stop (List Value) × Bindings}
    (h : g ∈ body n s callee r) :
    ∃ k params c vs b', callee = .function k params c ∧ r = (.ok vs, b') ∧
      vs.length = params.length ∧ g = ⟨n, s.enter params vs, c, b'⟩ := by
  unfold body at h
  split at h
  · next k params c vs b' =>
    split at h
    · next hn => exact ⟨k, params, c, vs, b', rfl, rfl, hn, List.mem_singleton.mp h⟩
    · cases h
  · cases h

theorem entered_unary {op : UnaryOp} : entered n s (.unary op e) b = [⟨n, s, e, b⟩] := by
  change sequence n s (evalWithin n s) [e] b = _
  rw [sequence, started_singleton]
  rfl

theorem enters_of_mem_entered (h : g ∈ entered n s e b) : Enters ⟨n + 1, s, e, b⟩ g := by
  cases e with
  | literal | name | define => cases h
  | binary op l r =>
    change g ∈ sequence n s (evalWithin n s) [l, r] b at h
    rcases hl : evalWithin n s l b with ⟨r', c⟩
    cases r' with
    | error stop =>
      rw [sequence, started_error hl] at h
      obtain rfl := List.mem_singleton.mp h
      exact .inl .left
    | ok v =>
      rw [sequence, started_ok hl, started_singleton] at h
      rcases List.mem_cons.mp h with rfl | h
      · exact .inl .left
      · obtain rfl := List.mem_singleton.mp h
        exact .inl (.right hl)
  | unary op e =>
    rw [entered_unary] at h
    obtain rfl := List.mem_singleton.mp h
    exact .inl .operand
  | builtin k args special =>
    obtain ⟨before, a, vs, b', hp, hbefore, rfl⟩ := mem_sequence h
    cases special with
    | none =>
      rw [children, Option.toList_none, List.append_nil] at hp
      exact .inl (.argument hp hbefore)
    | some e =>
      rcases List.prefix_concat_iff.mp hp with heq | hp
      · obtain ⟨rfl, rfl⟩ : before = args ∧ a = e := by simpa using heq
        exact .inl (.special hbefore)
      · exact .inl (.argument hp hbefore)
  | call x args =>
    rw [entered] at h
    cases hx : s.get? b x with
    | none =>
      rw [hx] at h
      cases h
    | some callee =>
      rw [hx] at h
      rcases List.mem_append.mp h with h | h
      · obtain ⟨before, a, vs, b', hp, hbefore, rfl⟩ := mem_sequence h
        exact .inl (.callArgument hx hp hbefore)
      · obtain ⟨k, params, c, vs, b', rfl, ha, hn, rfl⟩ := mem_body h
        exact .inr (.body hx ha hn)
  | list items =>
    obtain ⟨before, a, vs, b', hp, hbefore, rfl⟩ := mem_sequence h
    exact .inl (.item hp hbefore)
  | assign x value =>
    rw [entered] at h
    split at h
    · cases h
    · next hx =>
      obtain rfl := List.mem_singleton.mp h
      exact .inl (.value (Bool.eq_false_iff.mpr hx))

theorem mem_sequence_of_reached {vs : List α} (hp : before ++ [a] <+: es)
    (hb : before.mapM m b = (.ok vs, b')) : ⟨n, s, a, b'⟩ ∈ sequence n s m es b :=
  List.mem_map_of_mem (mem_started_of_reached hp hb)

theorem mem_entered_of_enters (h : Enters ⟨n + 1, s, e, b⟩ g) : g ∈ entered n s e b := by
  cases h with
  | inl h =>
    cases h with
    | @left _ _ _ l r b =>
      have hnone : List.mapM (evalWithin n s) [] b = (.ok [], b) := rfl
      exact mem_sequence_of_reached ⟨[r], rfl⟩ hnone
    | @right _ _ _ l r b v b' hl =>
      have hleft : List.mapM (evalWithin n s) [l] b = (.ok [v], b') := by
        rw [List.mapM_cons, bind_ok hl]
        rfl
      exact mem_sequence_of_reached List.prefix_rfl hleft
    | operand => exact entered_unary ▸ List.mem_singleton_self _
    | argument hp hb => exact mem_sequence_of_reached (hp.trans (List.prefix_append _ _)) hb
    | special ha => exact mem_sequence_of_reached List.prefix_rfl ha
    | callArgument hx hp hb =>
      rw [entered, hx]
      exact List.mem_append_left _ (mem_sequence_of_reached hp hb)
    | item hp hb => exact mem_sequence_of_reached hp hb
    | value hx =>
      rw [entered, hx]
      exact List.mem_singleton_self _
  | inr h =>
    cases h with
    | body hx ha hn =>
      rw [entered, hx]
      refine List.mem_append_right _ ?_
      rw [ha, body, if_pos hn]
      exact List.mem_singleton_self _

theorem stores_of_run_ok (hr : f.run = (.ok v, b)) (hx : f.expr.target? = some x) :
    f.Stores x v := by
  obtain ⟨n, s, e, b₀⟩ := f
  cases n with
  | zero => cases hr
  | succ n =>
    cases e with
    | assign y value =>
      cases hx
      obtain ⟨_, b₁, ha, h⟩ := bind_eq_ok_iff.mp hr
      obtain ⟨w, b₂, _, h⟩ := bind_eq_ok_iff.mp h
      cases h
      exact ⟨rfl, (Evaluation.assignable_eq_ok ha).1, b₂, hr⟩
    | define k params body =>
      cases hx
      obtain ⟨_, b₁, ha, h⟩ := bind_eq_ok_iff.mp hr
      cases h
      exact ⟨rfl, (Evaluation.assignable_eq_ok ha).1, b₁, hr⟩
    | _ => cases hx

theorem mem_storesOwn {r : Except Stop Value} :
    w ∈ e.storesOwn r ↔ e.target? = some w.1 ∧ r = .ok w.2 := by
  obtain ⟨x, v⟩ := w
  unfold storesOwn
  split
  · next y u hy =>
    simp only [List.mem_singleton, Prod.mk.injEq, hy, Option.some.injEq, Except.ok.injEq]
    exact and_congr eq_comm eq_comm
  · next h => exact iff_of_false List.not_mem_nil fun ⟨hx, hv⟩ => h x v hx hv

theorem Enters.levels_eq (h : Enters f g) : f.levels = g.levels + 1 := by
  cases h with
  | inl h => cases h <;> rfl
  | inr h => cases h with | body => rfl

theorem mem_logWithin : w ∈ logWithin (n + 1) s e b ↔
    (∃ g, Enters ⟨n + 1, s, e, b⟩ g ∧ w ∈ g.log) ∨ w ∈ e.storesOwn
    (evalWithin (n + 1) s e b).1 := by
  rw [logWithin, List.mem_append, List.mem_flatMap]
  refine or_congr_left (exists_congr fun g => ?_)
  constructor
  · intro ⟨hg, h⟩
    have henters := enters_of_mem_entered hg
    rw [log, ← Nat.succ.inj henters.levels_eq]
    exact ⟨henters, h⟩
  · intro ⟨henters, h⟩
    rw [log, ← Nat.succ.inj henters.levels_eq] at h
    exact ⟨mem_entered_of_enters henters, h⟩

theorem Stores.levels_ne_zero (h : f.Stores x v) : f.levels ≠ 0 := by
  obtain ⟨n, s, e, b⟩ := f
  rintro rfl
  obtain ⟨b', hr⟩ := h.run
  cases hr

/-- The log holds what is stored by the evaluation and by those inside, and nothing else. -/
theorem mem_log : w ∈ f.log ↔ ∃ g, Reaches f g ∧ g.Stores w.1 w.2 := by
  constructor
  · intro h
    obtain ⟨n, s, e, b⟩ := f
    induction n generalizing s e b with
    | zero => cases h
    | succ n ih =>
      rcases mem_logWithin.mp h with ⟨g, henters, h⟩ | h
      · obtain ⟨m, s', e', b'⟩ := g
        obtain rfl : n = m := Nat.succ.inj henters.levels_eq
        obtain ⟨k, hk, hs⟩ := ih s' e' b' h
        exact ⟨k, .head henters hk, hs⟩
      · obtain ⟨hx, hv⟩ := mem_storesOwn.mp h
        exact ⟨_, .refl, stores_of_run_ok (Prod.ext hv rfl) hx⟩
  · intro ⟨g, hr, hs⟩
    induction hr using ReflTransGen.head_induction_on with
    | refl =>
      obtain ⟨n, hn⟩ := Nat.exists_eq_succ_of_ne_zero hs.levels_ne_zero
      obtain ⟨m, s, e, b⟩ := g
      cases hn
      obtain ⟨b', hr⟩ := hs.run
      exact mem_logWithin.mpr (.inr (mem_storesOwn.mpr ⟨hs.target, congrArg Prod.fst hr⟩))
    | @head f k henters hk ih =>
      obtain ⟨m, s, e, b⟩ := f
      obtain rfl : m = k.levels + 1 := henters.levels_eq
      exact mem_logWithin.mpr (.inl ⟨k, henters, ih⟩)

theorem logs_append (n : Nat) (fs gs : List Frame) : logs n (fs ++ gs) = logs n fs ++ logs n gs :=
  List.flatMap_append

theorem logs_singleton (n : Nat) (f : Frame) : logs n [f] = logWithin n f.scope f.expr f.assigned :=
  List.flatMap_singleton _ _

theorem logWithin_of_target_none (h : e.target? = none) :
    logWithin (n + 1) s e b = logs n (entered n s e b) := by
  have hown (r : Except Stop Value) : e.storesOwn r = [] := by
    unfold storesOwn
    rw [h]
  rw [logWithin, hown, List.append_nil]
  rfl

/-- The evaluations with `n` levels of nesting left leave what their logs say. -/
def Leaves (n : Nat) : Prop := ∀ s e b, (evalWithin n s e b).2 = b.insertAll (logWithin n s e b)

theorem Leaves.sequence (hn : Leaves n) (s : Scope) (es : List Expr) (b : Bindings) :
    (es.mapM (evalWithin n s) b).2 = b.insertAll (logs n (sequence n s (evalWithin n s) es b)) := by
  rw [mapM_snd_log fun e _ b => hn s e b, logs, Frame.sequence, List.flatMap_map]

theorem Leaves.items (hn : Leaves n) (s : Scope) (items : List Expr) (b : Bindings) :
    (evalWithin (n + 1) s (.list items) b).2 = b.insertAll
    (logs n (entered n s (.list items) b)) := by
  have hitem e b : ((evalWithin n s e >>= Evaluation.element) b).2 =
      b.insertAll (logWithin n s e b) :=
    (bind_snd_of_quiet Evaluation.element_snd).trans (hn s e b)
  refine (bind_snd_of_quiet fun _ _ => rfl).trans ?_
  rw [mapM_snd_log fun e _ b => hitem e b, logs, entered, Frame.sequence, List.flatMap_map]

theorem Leaves.called {callee : Value} {args : List Expr} {vs : List Value} (hn : Leaves n)
    (hx : s.get? b x = some callee) (ha : args.mapM (evalWithin n s) b = (.ok vs, b')) :
    (evalWithin (n + 1) s (.call x args) b).2 = b'.insertAll
    (logs n (body n s callee (.ok vs, b'))) := by
  refine (congrArg Prod.snd ((bind_ok (Evaluation.lookup_some hx)).trans (bind_ok ha))).trans ?_
  cases callee with
  | function g params c =>
    rw [body]
    dsimp only
    split
    · rw [logs_singleton]
      exact hn _ _ _
    · rfl
  | _ =>
    dsimp only
    split <;> rfl

theorem Leaves.call (hn : Leaves n) (s : Scope) (x : String) (args : List Expr) (b : Bindings) :
    (evalWithin (n + 1) s (.call x args) b).2 = b.insertAll
    (logs n (entered n s (.call x args) b)) := by
  rw [entered]
  cases hx : s.get? b x with
  | none => exact congrArg Prod.snd (bind_error (Evaluation.lookup_none hx))
  | some callee =>
    have hargs := hn.sequence s args b
    rcases ha : args.mapM (evalWithin n s) b with ⟨r, b'⟩
    rw [ha] at hargs
    rw [logs_append, Bindings.insertAll_append, ← hargs]
    cases r with
    | error stop =>
      refine (congrArg Prod.snd (bind_ok (Evaluation.lookup_some hx))).trans ?_
      rw [bind_error ha]
      cases callee <;> rfl
    | ok vs => exact hn.called hx ha

theorem Leaves.assign (hn : Leaves n) (s : Scope) (x : String) (value : Expr) (b : Bindings) :
    (evalWithin (n + 1) s (.assign x value) b).2 = b.insertAll
    (logWithin (n + 1) s (.assign x value) b) := by
  rw [logWithin, entered]
  cases hx : s.constants.contains x with
  | true =>
    rw [evalWithin_assign_constant hx]
    rfl
  | false =>
    have hvalue := hn s value b
    rcases hv : evalWithin n s value b with ⟨r, c⟩
    rw [hv] at hvalue
    have hrun : evalWithin (n + 1) s (.assign x value) b = _ :=
      bind_ok (Evaluation.assignable_of_free hx)
    rw [hrun, if_neg Bool.false_ne_true, List.flatMap_singleton, Bindings.insertAll_append,
      ← hvalue]
    cases r with
    | error stop =>
      rw [bind_error hv]
      rfl
    | ok v =>
      rw [bind_ok hv]
      rfl

/-- What an evaluation leaves are the variables that it began with, after the writes of its log. -/
theorem run_snd_log (f : Frame) : f.run.2 = f.assigned.insertAll f.log := by
  obtain ⟨n, s, e, b⟩ := f
  suffices hn : Leaves n from hn s e b
  clear s e b
  induction n with
  | zero => exact fun _ _ _ => rfl
  | succ n hn =>
    intro s e b
    cases e with
    | literal l => rfl
    | name x => exact Evaluation.lookup_snd s x b
    | binary op l r =>
      have hbinary : (evalWithin (n + 1) s (.binary op l r) b).2 =
          ([l, r].mapM (evalWithin n s) b).2 := by
        rw [List.mapM_cons, List.mapM_cons, List.mapM_nil]
        refine bind_snd_congr fun v c => (bind_snd_of_quiet fun _ _ => rfl).trans ?_
        exact ((bind_snd_of_quiet fun _ _ => rfl).trans (bind_snd_of_quiet fun _ _ => rfl)).symm
      rw [hbinary, logWithin_of_target_none rfl]
      exact hn.sequence s [l, r] b
    | unary op e =>
      rw [logWithin_of_target_none rfl, entered_unary, logs_singleton]
      exact (bind_snd_of_quiet fun _ _ => rfl).trans (hn s e b)
    | builtin k args special =>
      have hbuiltin : (evalWithin (n + 1) s (.builtin k args special) b).2 =
          ((args ++ special.toList).mapM (evalWithin n s) b).2 := by
        rw [List.mapM_append]
        refine bind_snd_congr fun vs c => (bind_snd_of_quiet fun _ _ => rfl).trans ?_
        refine Eq.trans ?_ (bind_snd_of_quiet fun _ _ => rfl).symm
        cases special with
        | none => rfl
        | some e =>
          rw [Option.toList_some, List.mapM_cons, List.mapM_nil]
          exact (bind_snd_of_quiet fun _ _ => rfl).trans (bind_snd_of_quiet fun _ _ => rfl).symm
      rw [hbuiltin, logWithin_of_target_none rfl]
      exact hn.sequence s (args ++ special.toList) b
    | call x args =>
      rw [logWithin_of_target_none rfl]
      exact hn.call s x args b
    | list items =>
      rw [logWithin_of_target_none rfl]
      exact hn.items s items b
    | assign x value => exact hn.assign s x value b
    | define k params c =>
      rw [logWithin, entered]
      cases hk : s.constants.contains k with
      | true =>
        rw [evalWithin_define_constant hk]
        rfl
      | false =>
        rw [evalWithin_define hk]
        rfl

end Frame

end UnitSheet
