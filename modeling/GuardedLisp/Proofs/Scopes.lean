import GuardedLisp.Proofs.Closures
import GuardedLisp.Proofs.Frames

/-!
# Bindings in a forest of frames

Frames lie inside one another, so a binding may be seen from many scopes and be hidden from others.
Whatever is done to a name of a scope changes the slot of that name in one frame.  It is seen from
just the scopes whose nearest frame with the name is this one, and no other name is affected.

Nothing here is about frames of evaluation in particular: names of a scope may have had their
permissions changed, and the nearest frame decides even if it denies access.

## Main definitions

* `ScopeChange`: what may be done to a name of a scope
* `Store.Forest`: the scopes that have been made, with whatever has been done to names in them

## Main results

* `Store.nearest?_congr`, `Store.lookup_of_nearest?_ne`: from where a change of a frame is not seen
* `Store.Forest.frame_lt`: the frames of a forest have been made
* `Store.Forest.changes_one_binding`: what a definition, an assignment and a change of permissions
  do to all lookups, and when they are refused
-/

namespace GuardedLisp

/-! ## Forests of frames -/

/-- What is done to a name of a scope. -/
inductive ScopeChange where
  | define (value : Value)
  | assign (value : Value)
  | chmod (flags : List PermissionFlag)
deriving DecidableEq, Repr

/-- The store once it has been done. -/
def ScopeChange.apply (scope : Scope) (name : Symbol) (s : Store) :
    ScopeChange → Except Error Store
  | define value => s.define scope name value
  | assign value => s.assign scope name value
  | chmod flags => (s.chmod scope name flags).map Prod.snd

/-- Does something to a name of a scope, unless it is refused. -/
def ScopeChange.run (change : ScopeChange) (scope : Scope) (name : Symbol) : EvalM Unit :=
  EvalM.edit fun s => change.apply scope name s

/-- The scopes that have been made one after another, around all others or inside one that was
there, while things were done to names in them.  What was refused counts too. -/
inductive Store.Forest : Store → List Scope → Prop
  | bare (s : Store) : Forest s []
  | outermost {s : Store} {scopes : List Scope} :
      s.Forest scopes → (s.newFrame []).2.Forest ((s.newFrame []).1 :: scopes)
  | inside {s : Store} {scopes : List Scope} {home : Scope} :
      s.Forest scopes → home ∈ scopes →
      (s.newFrame home.chain).2.Forest ((s.newFrame home.chain).1 :: scopes)
  | change {s : Store} {scopes : List Scope} {scope : Scope} (change : ScopeChange)
      (name : Symbol) :
      s.Forest scopes → scope ∈ scopes → ((change.run scope name).after s).Forest scopes

/-! ## From where a change of a frame is seen -/

namespace SlotTable

variable {table : SlotTable} {name : Symbol} {slot : Slot}

/-- A slot that is replaced leaves the same names. -/
theorem contains_insert_of_contains (had : table.contains name = true) (slot : Slot)
    (other : Symbol) : (table.insert name slot).contains other = table.contains other := by
  by_cases same : other = name
  · subst same
    rw [had, contains, find?_insert_self]
    rfl
  · rw [contains, find?_insert_of_ne same, contains]

/-- What is read from a slot that has just been written. -/
theorem get_insert_self (table : SlotTable) (name : Symbol) (slot : Slot) (value : Value)
    (access : Access) :
    (table.insert name { slot with value := some value }).get name access =
      if slot.permission.allowsRead access then .ok value
      else .error (.denied .read name.name) := by
  simp only [get, find?_insert_self]
  cases slot.permission.allowsRead access <;> rfl

end SlotTable

namespace Store

variable {s s' : Store} {scope : Scope} {name : Symbol} {id : FrameId}

theorem nearest?_eq_none_iff :
    s.nearest? scope name = none ↔ ∀ id ∈ scope.chain, (s.frame id).contains name = false := by
  simp [nearest?]

/-- Where a name is found depends on which frames have it. -/
theorem nearest?_congr (same : ∀ id, (s'.frame id).contains name = (s.frame id).contains name)
    (scope : Scope) : s'.nearest? scope name = s.nearest? scope name := by
  simp only [nearest?, same]

theorem lookup_of_nearest? (nearest : s.nearest? scope name = some id) :
    s.lookup scope name = (s.frame id).get name .outside := by
  simp only [lookup, nearest]

/-- A name that is added to one frame does not matter where this frame is not the nearest. -/
theorem nearest?_of_ne_some
    (others : ∀ other, other ≠ id →
      (s'.frame other).contains name = (s.frame other).contains name)
    (kept : (s.frame id).contains name = true → (s'.frame id).contains name = true)
    (apart : s'.nearest? scope name ≠ some id) :
    s'.nearest? scope name = s.nearest? scope name := by
  -- Induction on the chain: a frame is passed over in both stores, or it is the nearest in both.
  unfold nearest? at apart ⊢
  generalize scope.chain = chain at apart ⊢
  induction chain with
  | nil => rfl
  | cons frame chain ih =>
    rw [List.find?_cons] at apart ⊢
    rw [List.find?_cons]
    rcases eq_or_ne frame id with rfl | ne
    · cases after : (s'.frame frame).contains name with
      | true =>
        rw [after] at apart
        exact absurd rfl apart
      | false =>
        have before : (s.frame frame).contains name = false :=
          eq_false_of_ne_true fun had => Bool.false_ne_true (after ▸ kept had)
        rw [after] at apart
        rw [before]
        exact ih apart
    · rw [others frame ne] at apart ⊢
      cases there : (s.frame frame).contains name with
      | true => rfl
      | false =>
        rw [there] at apart
        exact ih apart

/-- What is added to a frame or changed there is not seen from a scope whose nearest frame with the
name is another one, or that has no such frame. -/
theorem lookup_of_nearest?_ne
    (others : ∀ other, other ≠ id → (s'.frame other).find? name = (s.frame other).find? name)
    (kept : (s.frame id).contains name = true → (s'.frame id).contains name = true)
    (apart : s'.nearest? scope name ≠ some id) :
    s'.lookup scope name = s.lookup scope name := by
  have nearest : s'.nearest? scope name = s.nearest? scope name := by
    refine nearest?_of_ne_some (fun other ne => ?_) kept apart
    rw [SlotTable.contains, others other ne, SlotTable.contains]
  cases found : s'.nearest? scope name with
  | none => rw [lookup, lookup, found, ← nearest, found]
  | some other =>
    have ne : other ≠ id := fun same => apart (found.trans (congrArg some same))
    rw [lookup_of_nearest? found, lookup_of_nearest? (nearest.symm.trans found)]
    simp only [SlotTable.get, others other ne]

/-! ## What changes of names do to lookups -/

/-- A new binding is seen from where its frame is now the nearest that has the name. -/
theorem lookup_define {value : Value} (made : scope.frame < s.frames.size)
    (defined : s.define scope name value = .ok s') (place : Scope) (other : Symbol) :
    s'.lookup place other =
      if other = name ∧ s'.nearest? place name = some scope.frame then .ok value
      else s.lookup place other := by
  split
  · next seen =>
    obtain ⟨rfl, nearest⟩ := seen
    obtain ⟨-, rfl⟩ := of_define_eq_ok defined
    rw [lookup_of_nearest? nearest, frame_setFrame_self made, SlotTable.get_insert_self _ _ {}]
    rfl
  · next unseen =>
    by_cases same : other = name
    · subst same
      have apart : s'.nearest? place other ≠ some scope.frame := fun nearest =>
        unseen ⟨rfl, nearest⟩
      obtain ⟨new, rfl⟩ := of_define_eq_ok defined
      refine lookup_of_nearest?_ne (fun frame ne => ?_) (fun had => ?_) apart
      · rw [frame_setFrame_of_ne ne]
      · simp [SlotTable.contains, new] at had
    · exact lookup_define_of_ne same defined place

/-- A slot that is replaced in a frame is seen from where that frame is the nearest that has the
name. -/
theorem lookup_setFrame_insert (slot : Slot) (had : (s.frame id).contains name = true)
    (place : Scope) (other : Symbol) :
    (s.setFrame id ((s.frame id).insert name slot)).lookup place other =
      if other = name ∧ s.nearest? place name = some id then
        ((s.frame id).insert name slot).get name .outside
      else s.lookup place other := by
  have made : id < s.frames.size := by
    rcases Nat.lt_or_ge id s.frames.size with made | absent
    · exact made
    · simp [frame, absent, SlotTable.contains, SlotTable.find?] at had
  have contains (frame : FrameId) :
      ((s.setFrame id ((s.frame id).insert name slot)).frame frame).contains name =
        (s.frame frame).contains name := by
    rw [frame_setFrame]
    split
    · next here => rw [SlotTable.contains_insert_of_contains had, here.1]
    · rfl
  split
  · next seen =>
    obtain ⟨rfl, nearest⟩ := seen
    rw [← nearest?_congr contains] at nearest
    rw [lookup_of_nearest? nearest, frame_setFrame_self made]
  · next unseen =>
    by_cases same : other = name
    · subst same
      have others (frame : FrameId) (ne : frame ≠ id) :
          ((s.setFrame id ((s.frame id).insert other slot)).frame frame).find? other =
            (s.frame frame).find? other := by rw [frame_setFrame_of_ne ne]
      refine lookup_of_nearest?_ne others (fun _ => (contains id).trans had) fun nearest => ?_
      exact unseen ⟨rfl, (nearest?_congr contains place).symm.trans nearest⟩
    · refine lookup_congr (fun frame => ?_) place
      rw [frame_setFrame]
      split
      · next here => rw [SlotTable.find?_insert_of_ne same, here.1]
      · rfl

/-- An assignment is seen from where the nearest frame with the name is the one that it has been
made in. -/
theorem lookup_assign {value : Value} (assigned : s.assign scope name value = .ok s')
    (place : Scope) (other : Symbol) :
    if other = name ∧ s.nearest? place name = s.nearest? scope name then
      s'.lookup place other = .ok value ∨
        s.lookup place other = .error (.denied .read name.name) ∧
          s'.lookup place other = .error (.denied .read name.name)
    else s'.lookup place other = s.lookup place other := by
  unfold assign at assigned
  split at assigned
  · cases assigned
  · next id nearest =>
    split at assigned
    · next table written =>
      obtain rfl := Except.ok.inj assigned
      obtain ⟨slot, found, -, rfl⟩ := SlotTable.exists_of_set_eq_ok written
      rw [nearest, lookup_setFrame_insert _ (nearest?_spec nearest).2]
      split
      · next seen =>
        obtain ⟨rfl, here⟩ := seen
        rw [SlotTable.get_insert_self, lookup_of_nearest? here]
        cases readable : slot.permission.allowsRead .outside with
        | true => exact .inl rfl
        | false => exact .inr ⟨by simp [SlotTable.get, found, readable], rfl⟩
      · rfl
    · cases assigned

/-! ## When changes of names are refused -/

theorem assign_eq_missing_iff {value : Value} {other : String} :
    s.assign scope name value = .error (.missingSymbol other) ↔
      other = name.name ∧ ∀ id ∈ scope.chain, (s.frame id).contains name = false := by
  rw [← nearest?_eq_none_iff]
  unfold assign
  cases nearest : s.nearest? scope name with
  | none => simp [eq_comm]
  | some id =>
    obtain ⟨slot, found⟩ := Option.isSome_iff_exists.mp (nearest?_spec nearest).2
    simp only [SlotTable.set, found]
    grind

theorem chmod_eq_missing_iff {flags : List PermissionFlag} {other : String} :
    s.chmod scope name flags = .error (.missingSymbol other) ↔
      other = name.name ∧ ∀ id ∈ scope.chain, (s.frame id).contains name = false := by
  rw [← nearest?_eq_none_iff]
  unfold chmod
  cases nearest : s.nearest? scope name with
  | none => simp [eq_comm]
  | some id =>
    obtain ⟨slot, found⟩ := Option.isSome_iff_exists.mp (nearest?_spec nearest).2
    simp only [SlotTable.chmod, found]
    grind

theorem define_eq_defined_iff {value : Value} {other : String} :
    s.define scope name value = .error (.alreadyDefined other) ↔
      other = name.name ∧ (s.frame scope.frame).contains name = true ∧
        (s.frame scope.frame).finalised = false := by
  unfold define
  rw [SlotTable.defineValue_eq]
  grind

/-! ## All changes of names in a forest -/

theorem size_setFrame (s : Store) (id : FrameId) (table : SlotTable) :
    (s.setFrame id table).frames.size = s.frames.size :=
  Array.size_setIfInBounds

/-- What is done to names makes no frame and takes none away. -/
theorem size_change {change : ScopeChange} (done : change.apply scope name s = .ok s') :
    s'.frames.size = s.frames.size := by
  cases change with
  | define value =>
    obtain ⟨-, rfl⟩ := of_define_eq_ok done
    exact size_setFrame _ _ _
  | assign value =>
    simp only [ScopeChange.apply, assign] at done
    split at done
    · cases done
    · split at done
      · cases done
        exact size_setFrame _ _ _
      · cases done
  | chmod flags =>
    simp only [ScopeChange.apply, chmod] at done
    split at done
    · cases done
    · split at done
      · cases done
        exact size_setFrame _ _ _
      · cases done

/-- What is refused leaves the store as it was. -/
theorem after_change_of_error {change : ScopeChange} {e : Error}
    (refused : (change.run scope name).outcome s = .error e) :
    (change.run scope name).after s = s := by
  have failed := EvalM.of_outcome_edit refused
  simp only [ScopeChange.run, EvalM.after, EvalM.edit, failed]

theorem size_after_change (change : ScopeChange) (s : Store) (scope : Scope) (name : Symbol) :
    ((change.run scope name).after s).frames.size = s.frames.size := by
  simp only [ScopeChange.run, EvalM.after, EvalM.edit]
  cases done : change.apply scope name s with
  | ok s' => exact size_change done
  | error e => rfl

theorem size_newFrame (s : Store) (outer : List FrameId) :
    (s.newFrame outer).2.frames.size = s.frames.size + 1 :=
  Array.size_push _

/-- A new scope has a new frame and the frames around it. -/
theorem frame_lt_newFrame {outer : List FrameId} (made : ∀ id ∈ outer, id < s.frames.size) :
    ∀ id ∈ (s.newFrame outer).1.chain, id < (s.newFrame outer).2.frames.size := by
  intro id mem
  rw [size_newFrame]
  rcases List.mem_cons.mp mem with rfl | mem
  · exact Nat.lt_succ_self _
  · exact Nat.lt_succ_of_lt (made id mem)

namespace Forest

variable {scopes : List Scope}

/-- The frames of a forest have been made. -/
theorem frame_lt (forest : s.Forest scopes) :
    ∀ scope ∈ scopes, ∀ id ∈ scope.chain, id < s.frames.size := by
  -- Induction on what has been done: frames are only added.
  induction forest with
  | bare s =>
    intro scope mem
    exact absurd mem List.not_mem_nil
  | @outermost s scopes forest ih =>
    intro scope mem
    rcases List.mem_cons.mp mem with rfl | mem
    · exact frame_lt_newFrame fun id mem => absurd mem List.not_mem_nil
    · intro id inChain
      exact size_newFrame s [] ▸ Nat.lt_succ_of_lt (ih scope mem id inChain)
  | @inside s scopes home forest here ih =>
    intro scope mem
    rcases List.mem_cons.mp mem with rfl | mem
    · exact frame_lt_newFrame (ih home here)
    · intro id inChain
      exact size_newFrame s home.chain ▸ Nat.lt_succ_of_lt (ih scope mem id inChain)
  | @change s scopes scope change name forest here ih =>
    rwa [size_after_change]

/-- **What is done to a name acts on one binding.**  In a forest of frames that has come about in
any way, take a scope `f`, a name and a value.

* A definition that succeeds is seen, by this name, from the scopes whose nearest frame with the
  name is then the frame of `f`; every other lookup gives what it gave.
* An assignment that succeeds is seen, by this name, from the scopes that have the same nearest
  frame with the name as `f`, unless they may not read it, before as after; every other lookup gives
  what it gave.
* An assignment or a change of permissions finds the name missing just if no frame of `f` has it,
  and a definition finds it defined just if the frame of `f` itself has it and is not finalised.
* If any of the three is refused, every lookup gives what it gave. -/
theorem changes_one_binding (forest : s.Forest scopes) {f : Scope} (here : f ∈ scopes)
    (name : Symbol) (value : Value) (flags : List PermissionFlag) :
    (∀ s', s.define f name value = .ok s' → ∀ (g : Scope) (other : Symbol),
      s'.lookup g other =
        if other = name ∧ s'.nearest? g name = some f.frame then .ok value
        else s.lookup g other) ∧
    (∀ s', s.assign f name value = .ok s' → ∀ (g : Scope) (other : Symbol),
      if other = name ∧ s.nearest? g name = s.nearest? f name then
        s'.lookup g other = .ok value ∨
          s.lookup g other = .error (.denied .read name.name) ∧
            s'.lookup g other = .error (.denied .read name.name)
      else s'.lookup g other = s.lookup g other) ∧
    (∀ other, s.assign f name value = .error (.missingSymbol other) ↔
      other = name.name ∧ ∀ id ∈ f.chain, (s.frame id).contains name = false) ∧
    (∀ other, s.chmod f name flags = .error (.missingSymbol other) ↔
      other = name.name ∧ ∀ id ∈ f.chain, (s.frame id).contains name = false) ∧
    (∀ other, s.define f name value = .error (.alreadyDefined other) ↔
      other = name.name ∧ (s.frame f.frame).contains name = true ∧
        (s.frame f.frame).finalised = false) ∧
    ∀ (change : ScopeChange) (e : Error), (change.run f name).outcome s = .error e →
      ∀ (g : Scope) (other : Symbol),
        ((change.run f name).after s).lookup g other = s.lookup g other := by
  refine ⟨?_, ?_, fun _ => assign_eq_missing_iff, fun _ => chmod_eq_missing_iff,
    fun _ => define_eq_defined_iff, ?_⟩
  · intro s' defined
    exact lookup_define (forest.frame_lt f here f.frame List.mem_cons_self) defined
  · intro s' assigned
    exact lookup_assign assigned
  · intro change e refused g other
    rw [after_change_of_error refused]

end Forest

end Store

/-- A scope of one frame. -/
def outerScope : Scope := ⟨0, []⟩

/-- A scope inside it. -/
def innerScope : Scope := ⟨1, [0]⟩

/-- The outer scope has a name `x`, and so has the inner one, where it may not be read. -/
def shadowed : Store :=
  let x : Symbol := ⟨35, "x"⟩
  let outer := ((ScopeChange.define (.integer 1)).run outerScope x).after
    (Store.newFrame {} []).2
  let inner := ((ScopeChange.define (.integer 2)).run innerScope x).after
    (outer.newFrame outerScope.chain).2
  ((ScopeChange.chmod [.disable .anyRead]).run innerScope x).after inner

theorem forest_shadowed : shadowed.Forest [innerScope, outerScope] := by
  have empty : (Store.newFrame {} []).2.Forest [outerScope] := .outermost (.bare {})
  have outer := empty.change (.define (.integer 1)) ⟨35, "x"⟩ List.mem_cons_self
  have both := Store.Forest.inside outer List.mem_cons_self
  have inner := both.change (.define (.integer 2)) ⟨35, "x"⟩ List.mem_cons_self
  exact inner.change (.chmod [.disable .anyRead]) ⟨35, "x"⟩ List.mem_cons_self

theorem changes_one_binding_shadowed :
    shadowed.Forest [innerScope, outerScope] ∧ innerScope ∈ [innerScope, outerScope] ∧
    ∃ s', shadowed.assign innerScope ⟨35, "x"⟩ (.integer 3) = .ok s' ∧
      s'.lookup innerScope ⟨35, "x"⟩ = .error (.denied .read "x") ∧
      s'.lookup outerScope ⟨35, "x"⟩ = .ok (.integer 1) := by
  refine ⟨forest_shadowed, List.mem_cons_self, _, rfl, ?_, ?_⟩
  · rfl
  · obtain ⟨-, assigned, -⟩ := forest_shadowed.changes_one_binding List.mem_cons_self ⟨35, "x"⟩
      (.integer 3) []
    exact assigned _ rfl outerScope ⟨35, "x"⟩

end GuardedLisp
