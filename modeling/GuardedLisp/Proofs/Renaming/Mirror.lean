import GuardedLisp.Proofs.Reader.Table
import GuardedLisp.Proofs.Renaming.Store
import GuardedLisp.Proofs.Run

/-!
# Computations with renamed addresses and symbols

A computation may be started in a store that has been renamed, and be given renamed values.  It then
does the same, and what it ends with is renamed alike, provided that the renaming takes the
addresses that are fresh on the one side to those that are fresh on the other, in order.

## Main definitions

* `EvalM.taken`: how many addresses a computation takes
* `EvalM.Mirrors`: one computation does with renamed values what another one does
* `Action.rename`, `Action.relabel`: a step on renamed values, and the renaming of its result

## Main results

* `EvalM.mirrors_bind`: computations that mirror others may be put together
* `EvalM.mirrors_ofDatum`: what has been read is the same wherever its addresses start, and
  whatever the numbers of its symbols are
* `mirrors_act`: every step on renamed values mirrors the step on the values as they were
-/

namespace GuardedLisp

open Machine (act fail bindParams during)

/-! ## Computations that mirror each other -/

/-- What a computation ends with, renamed. -/
def renameResult (f : Renaming) (next : Address) (r : α → β) :
    EStateM.Result Error Store α → EStateM.Result Error Store β
  | .ok a s => .ok (r a) (s.rename f next)
  | .error e s => .error e (s.rename f next)

namespace EvalM

/-- How many addresses a computation takes. -/
def taken (x : EvalM α) (s : Store) : Nat := (x.after s).nextAddress - s.nextAddress

/-- Whatever store `x` is started in, `y` does the same in the renamed store, if the addresses that
`x` takes are renamed to those from `next` on.  Errors are texts, so they are equal. -/
structure Mirrors (f : Renaming) (r : α → β) (x : EvalM α) (y : EvalM β) : Prop where
  grows (s : Store) : s.nextAddress ≤ (x.after s).nextAddress
  follows (s : Store) (next : Address) :
    (∀ i < x.taken s, f.address (s.nextAddress + i) = next + i) →
      y (s.rename f next) = renameResult f (next + x.taken s) r (x s)

variable {f : Renaming}

/-- A computation that takes no address. -/
theorem mirrors_of_keeps {r : α → β} {x : EvalM α} {y : EvalM β}
    (keeps : ∀ s, (x.after s).nextAddress = s.nextAddress)
    (follows : ∀ s next, y (s.rename f next) = renameResult f next r (x s)) :
    Mirrors f r x y where
  grows s := Nat.le_of_eq (keeps s).symm
  follows s next _ := by rw [follows, taken, keeps, Nat.sub_self, Nat.add_zero]

theorem mirrors_pure (r : α → β) (a : α) : Mirrors f r (pure a : EvalM α) (pure (r a)) :=
  mirrors_of_keeps (fun _ => rfl) fun _ _ => rfl

theorem mirrors_fail (r : α → β) (e : Error) : Mirrors f r (fail e : EvalM α) (fail e) :=
  mirrors_of_keeps (fun _ => rfl) fun _ _ => rfl

theorem mirrors_fail_of_eq (r : α → β) {e e' : Error} (same : e' = e) :
    Mirrors f r (fail e : EvalM α) (fail e') :=
  same ▸ mirrors_fail r e'

theorem mirrors_ofExcept (r : α → β) (result : Except Error α) :
    Mirrors f r (Machine.ofExcept result : EvalM α) (Machine.ofExcept (result.map r)) := by
  cases result with
  | ok a => exact mirrors_pure r a
  | error e => exact mirrors_fail r e

theorem mirrors_bind {r : α → β} {q : γ → δ} {x : EvalM α} {y : EvalM β} {g : α → EvalM γ}
    {h : β → EvalM δ} (first : Mirrors f r x y) (rest : ∀ a, Mirrors f q (g a) (h (r a))) :
    Mirrors f q (x >>= g) (y >>= h) := by
  have grows (s : Store) : s.nextAddress ≤ (EvalM.after (x >>= g) s).nextAddress := by
    have begun := first.grows s
    rw [after_bind]
    split
    · next a _ => exact Nat.le_trans begun ((rest a).grows (x.after s))
    · exact begun
  refine ⟨grows, fun s next fresh => ?_⟩
  have mirrored := first.follows s next
  cases ran : x s with
  | error e s₁ =>
    have ended : EvalM.taken (x >>= g) s = x.taken s := by
      simp only [taken, after_bind, outcome, ran]
    rw [ended] at fresh ⊢
    rw [ran] at mirrored
    rw [bind_of_error ran, bind_of_error (mirrored fresh)]
    rfl
  | ok a s₁ =>
    have moved : x.after s = s₁ := by simp only [after, ran]
    have begun : s.nextAddress + x.taken s = s₁.nextAddress :=
      moved ▸ Nat.add_sub_of_le (first.grows s)
    have total : EvalM.taken (x >>= g) s = x.taken s + (g a).taken s₁ := by
      simp only [taken, after_bind, outcome, ran, moved]
      rw [Nat.add_comm]
      exact (Nat.sub_add_sub_cancel ((rest a).grows s₁) (moved ▸ first.grows s)).symm
    rw [total] at fresh ⊢
    rw [ran] at mirrored
    have same := mirrored fun i small => fresh i (Nat.lt_add_right _ small)
    have continued := (rest a).follows s₁ (next + x.taken s) fun i small => by
      rw [← begun, Nat.add_assoc, fresh _ (Nat.add_lt_add_left small _), Nat.add_assoc]
    rw [Nat.add_assoc] at continued
    rw [bind_of_ok ran, bind_of_ok same, continued]

/-- The result of the first computation holds no addresses and no symbols. -/
theorem mirrors_bind_same {q : γ → δ} {x y : EvalM α} {g : α → EvalM γ} {h : α → EvalM δ}
    (first : Mirrors f id x y) (rest : ∀ a, Mirrors f q (g a) (h a)) :
    Mirrors f q (x >>= g) (y >>= h) :=
  mirrors_bind first rest

theorem mirrors_check (result : Except Error α) :
    Mirrors f id (Machine.ofExcept result : EvalM α) (Machine.ofExcept result) := by
  cases result with
  | ok a => exact mirrors_pure id a
  | error e => exact mirrors_fail id e

theorem mirrors_during {r : α → β} {x : EvalM α} {y : EvalM β} (application : Value)
    (mirrors : Mirrors f r x y) :
    Mirrors f r (during application x) (during (application.rename f) y) := by
  have after_eq (s : Store) : (EvalM.during application x).after s = x.after s :=
    after_during application x s
  constructor
  · intro s
    exact (after_eq s).symm ▸ mirrors.grows s
  · intro s next fresh
    have same : (EvalM.during application x).taken s = x.taken s := by
      simp only [taken, after_eq]
    have mirrored := mirrors.follows s next (same ▸ fresh)
    change EvalM.during (application.rename f) y (s.rename f next) = renameResult f
      (next + (EvalM.during application x).taken s) r (EvalM.during application x s)
    rw [same]
    simp only [EvalM.during, mirrored, Value.text_rename]
    cases x s <;> rfl

theorem mirrors_mapM {r : α → β} {q : γ → δ} {g : α → EvalM γ} {h : β → EvalM δ}
    (each : ∀ a, Mirrors f q (g a) (h (r a))) (items : List α) :
    Mirrors f (List.map q) (items.mapM g) ((items.map r).mapM h) := by
  rw [← List.mapM'_eq_mapM, ← List.mapM'_eq_mapM]
  induction items with
  | nil => exact mirrors_pure _ []
  | cons item items ih =>
    refine mirrors_bind (each item) fun c => mirrors_bind ih fun cs => ?_
    exact mirrors_pure (List.map q) (c :: cs)

theorem mirrors_forM {r : α → β} {g : α → EvalM PUnit} {h : β → EvalM PUnit}
    (each : ∀ a, Mirrors f id (g a) (h (r a))) (items : List α) :
    Mirrors f id (items.forM g) ((items.map r).forM h) := by
  induction items with
  | nil => exact mirrors_pure id _
  | cons item items ih => exact mirrors_bind_same (each item) fun _ => ih

/-! ## Questions and changes -/

theorem mirrors_ask {r : α → β} {query : Store → Except Error α} {other : Store → Except Error β}
    (renamed : ∀ s next, other (s.rename f next) = (query s).map r) :
    Mirrors f r (ask query) (ask other) := by
  refine mirrors_of_keeps (fun s => congrArg Store.nextAddress (after_ask query s)) ?_
  intro s next
  simp only [ask, renamed]
  cases query s <;> rfl

theorem mirrors_edit {change other : Store → Except Error Store}
    (keeps : ∀ s s', change s = .ok s' → s'.nextAddress = s.nextAddress)
    (renamed : ∀ s next, other (s.rename f next) = (change s).map (Store.rename f next)) :
    Mirrors f id (edit change) (edit other) := by
  refine mirrors_of_keeps ?_ ?_
  · intro s
    unfold after edit
    cases changed : change s with
    | ok s' => exact keeps s s' changed
    | error e => rfl
  · intro s next
    simp only [edit, renamed]
    cases change s <;> rfl

theorem mirrors_editSlots (target : ClassId) (change other : SlotTable → Except Error SlotTable)
    (renamed : ∀ table, other (table.rename f) = (change table).map (SlotTable.rename f)) :
    Mirrors f id (editSlots target change) (editSlots target other) := by
  refine mirrors_edit ?_ ?_
  · intro s s' changed
    split at changed
    · obtain rfl := Except.ok.inj changed
      rfl
    · cases changed
  · intro s next
    rw [Store.slots_rename, renamed]
    cases change (s.slots target) with
    | error e => rfl
    | ok table => exact congrArg Except.ok (Store.setSlots_rename f next s target table)

/-! ## Fresh addresses -/

theorem alloc_pure (a : α) : alloc (pure a) = pure a := rfl

theorem alloc_bind (make : Alloc α) (rest : α → Alloc β) :
    alloc (make >>= rest) = alloc make >>= fun a => alloc (rest a) := rfl

theorem mirrors_fresh : Mirrors f f.address (alloc Alloc.fresh) (alloc Alloc.fresh) where
  grows s := Nat.le_succ s.nextAddress
  follows s next fresh := by
    have one : (alloc Alloc.fresh).taken s = 1 := Nat.add_sub_cancel_left ..
    rw [one] at fresh ⊢
    have first : f.address s.nextAddress = next := fresh 0 Nat.one_pos
    simp only [alloc, Alloc.fresh, renameResult, first]
    rfl

theorem mirrors_pair (first rest : Value) :
    Mirrors f (Value.rename f) (alloc (Alloc.pair first rest))
      (alloc (Alloc.pair (first.rename f) (rest.rename f))) := by
  simp only [Alloc.pair, alloc_bind, alloc_pure]
  exact mirrors_bind mirrors_fresh fun address =>
    mirrors_pure (Value.rename f) (.pair address first rest)

theorem mirrors_list (items : List Value) :
    Mirrors f (Value.rename f) (alloc (Alloc.list items))
      (alloc (Alloc.list (items.map (Value.rename f)))) := by
  unfold Alloc.list
  induction items with
  | nil => exact mirrors_pure (Value.rename f) .nil
  | cons first items ih =>
    simp only [List.map_cons, Alloc.chain_cons, alloc_bind]
    exact mirrors_bind ih fun rest => mirrors_pair first rest

theorem mirrors_closure (kind : ClosureKind) (params : Params) (body : Value) (scope : Scope) :
    Mirrors f (Value.rename f)
      (alloc do return .closure (← Alloc.fresh) kind params body scope)
      (alloc do return .closure (← Alloc.fresh) kind (params.rename f) (body.rename f) scope) := by
  simp only [alloc_bind, alloc_pure]
  exact mirrors_bind mirrors_fresh fun address =>
    mirrors_pure (Value.rename f) (.closure address kind params body scope)

/-- What has been read has no address but fresh ones. -/
theorem mirrors_ofDatum (datum : Datum) :
    Mirrors f (Value.rename f) (alloc (Alloc.ofDatum datum))
      (alloc (Alloc.ofDatum (datum.mapSymbols (Symbol.rename f)))) := by
  induction datum with
  | string text =>
    simp only [Datum.mapSymbols, Alloc.ofDatum, alloc_bind, alloc_pure]
    exact mirrors_bind mirrors_fresh fun address =>
      mirrors_pure (Value.rename f) (.string address text)
  | pair first rest ihFirst ihRest =>
    simp only [Datum.mapSymbols, Alloc.ofDatum, alloc_bind]
    exact mirrors_bind ihFirst fun first => mirrors_bind ihRest fun rest => mirrors_pair first rest
  | nil => exact mirrors_pure (Value.rename f) .nil
  | integer value => exact mirrors_pure (Value.rename f) (.integer value)
  | symbol name => exact mirrors_pure (Value.rename f) (.symbol name)

end EvalM

open EvalM

/-! ## Steps -/

/-- A step on renamed names and values. -/
def Action.rename (f : Renaming) : Action α → Action α
  | .lookup scope name => .lookup scope (name.rename f)
  | .define scope name value => .define scope (name.rename f) (value.rename f)
  | .assign scope name value => .assign scope (name.rename f) (value.rename f)
  | .readSlot id name access => .readSlot id (name.rename f) access
  | .defineSlot id name datatype => .defineSlot id (name.rename f) datatype
  | .writeSlot id name value access => .writeSlot id (name.rename f) (value.rename f) access
  | .chmodSlot id name flags => .chmodSlot id (name.rename f) flags
  | .pair first rest => .pair (first.rename f) (rest.rename f)
  | .list items => .list (items.map (Value.rename f))
  | .closure kind params body scope => .closure kind (params.rename f) (body.rename f) scope
  | action => action

/-- The renaming of what a step gives. -/
def Action.relabel (f : Renaming) : Action α → α → α
  | .lookup _ _ | .readSlot _ _ _ | .pair _ _ | .list _ | .closure _ _ _ _ => Value.rename f
  | .define _ _ _ | .assign _ _ _ | .enter _ | .newClass _ | .defineSlot _ _ _
  | .writeSlot _ _ _ _ | .chmodSlot _ _ _ | .finalise _ | .print _ => id

theorem Store.nextAddress_define {s s' : Store} {scope : Scope} {name : Symbol} {value : Value}
    (h : s.define scope name value = .ok s') : s'.nextAddress = s.nextAddress := by
  unfold Store.define at h
  split at h
  · obtain rfl := Except.ok.inj h
    rfl
  · cases h

theorem Store.nextAddress_assign {s s' : Store} {scope : Scope} {name : Symbol} {value : Value}
    (h : s.assign scope name value = .ok s') : s'.nextAddress = s.nextAddress := by
  unfold Store.assign at h
  split at h
  · cases h
  · split at h
    · obtain rfl := Except.ok.inj h
      rfl
    · cases h

/-- A step does with renamed names and values what it does with these as they were. -/
theorem mirrors_act (f : Renaming) (action : Action α) :
    Mirrors f (action.relabel f) (act action : EvalM α) (act (action.rename f)) := by
  cases action with
  | lookup scope name => exact mirrors_ask fun s next => Store.lookup_rename f next s scope name
  | define scope name value =>
    exact mirrors_edit (fun _ _ => Store.nextAddress_define)
      fun s next => Store.define_rename f next s scope name value
  | assign scope name value =>
    exact mirrors_edit (fun _ _ => Store.nextAddress_assign)
      fun s next => Store.assign_rename f next s scope name value
  | enter scope =>
    refine mirrors_of_keeps (fun _ => rfl) fun s next => ?_
    exact congrArg (fun made => EStateM.Result.ok made.1 made.2)
      (Store.newFrame_rename f next s scope.chain)
  | newClass parents =>
    refine mirrors_of_keeps (fun _ => rfl) fun s next => ?_
    exact congrArg (fun made => EStateM.Result.ok made.1 made.2)
      (Store.newClass_rename f next s parents)
  | readSlot target name access =>
    refine mirrors_ask fun s next => ?_
    rw [Store.slots_rename]
    exact SlotTable.get_rename f (s.slots target) name access
  | defineSlot target name datatype =>
    exact mirrors_editSlots target (SlotTable.define · name datatype)
      (SlotTable.define · (name.rename f) datatype) fun table =>
        SlotTable.define_rename f table name datatype
  | writeSlot target name value access =>
    exact mirrors_editSlots target (SlotTable.set · name value access)
      (SlotTable.set · (name.rename f) (value.rename f) access) fun table =>
        SlotTable.set_rename f table name value access
  | chmodSlot target name flags =>
    refine mirrors_editSlots target (fun table => (table.chmod name flags).map Prod.snd)
      (fun table => (table.chmod (name.rename f) flags).map Prod.snd) fun table => ?_
    rw [SlotTable.chmod_rename]
    cases table.chmod name flags <;> rfl
  | finalise target =>
    exact mirrors_editSlots target (.ok ·.finalise) (.ok ·.finalise) fun table => rfl
  | pair first rest => exact mirrors_pair first rest
  | list items => exact mirrors_list items
  | closure kind params body scope => exact mirrors_closure kind params body scope
  | print text => exact mirrors_of_keeps (fun _ => rfl) fun _ _ => rfl

end GuardedLisp
