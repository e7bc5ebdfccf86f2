import GuardedLisp.Proofs.Class.Descent
import GuardedLisp.Proofs.Class.Sealed
import Mathlib.Data.List.Forall2

/-!
# Stores that differ in a secret

A secret is an integer in one slot of a sealed class.  Two stores are alike if they differ in
nothing else than the secret and the copies that classes have inherited since.  Whoever has no
grant for the class keeps such stores alike, with every step that reads no slot of a class; and a
slot that is read is the same in both, unless it has the secret.

Tables are compared entry by entry, since that is how they are inherited.

## Main definitions

* `Secret`: a slot of a class, and the two integers that it may hold
* `SlotTable.Alike`, `Secret.Alike`: tables and stores that differ in the secret only

## Main results

* `SlotTable.Alike.get`: what is read from alike tables is the same or the secret
* `Secret.Alike.act_unguarded`, `Secret.Alike.act_write`: a step keeps stores alike
-/

namespace GuardedLisp

/-- A slot of a class, the integer that it holds in one store, and the one in the other. -/
structure Secret where
  id : ClassId
  name : Symbol
  value : Int64
  other : Int64
  /-- How many classes there were when the two stores parted. -/
  old : Nat

variable {x : Secret} {tainted : Prop}

/-! ## Tables -/

/-- Slots of one name that differ at most in the secret, and only if there may be a copy of it. -/
structure Slot.Alike (x : Secret) (tainted : Prop) (name : Symbol) (slot slot' : Slot) : Prop where
  permission : slot'.permission = slot.permission
  datatype : slot'.datatype = slot.datatype
  value : slot'.value = slot.value ∨
    tainted ∧ name = x.name ∧ slot.value = some (.integer x.value) ∧
      slot'.value = some (.integer x.other)

/-- Tables with the same names in the same order, whose slots are alike. -/
structure SlotTable.Alike (x : Secret) (tainted : Prop) (table table' : SlotTable) : Prop where
  finalised : table'.finalised = table.finalised
  entries : List.Forall₂ (fun entry entry' : Symbol × Slot =>
    entry'.1 = entry.1 ∧ entry.2.Alike x tainted entry.1 entry'.2) table.entries table'.entries

theorem Slot.Alike.refl (name : Symbol) (slot : Slot) : slot.Alike x tainted name slot :=
  ⟨rfl, rfl, .inl rfl⟩

theorem Slot.Alike.mono {tainted' : Prop} (h : tainted → tainted') {name : Symbol}
    {slot slot' : Slot} (slots : slot.Alike x tainted name slot') :
    slot.Alike x tainted' name slot' := by
  refine ⟨slots.permission, slots.datatype, ?_⟩
  rcases slots.value with same | ⟨copied, rest⟩
  · exact .inl same
  · exact .inr ⟨h copied, rest⟩

theorem Slot.Alike.inherited {name : Symbol} {slot slot' : Slot}
    (slots : slot.Alike x tainted name slot') :
    slot.inherited.Alike x tainted name slot'.inherited := by
  refine ⟨?_, slots.datatype, slots.value⟩
  simp only [Slot.inherited, slots.permission]

namespace SlotTable

theorem Alike.refl (table : SlotTable) : table.Alike x tainted table := by
  refine ⟨rfl, List.forall₂_same.mpr ?_⟩
  intro entry _
  exact ⟨rfl, .refl entry.1 entry.2⟩

theorem Alike.mono {tainted' : Prop} (h : tainted → tainted') {table table' : SlotTable}
    (alike : table.Alike x tainted table') : table.Alike x tainted' table' := by
  refine ⟨alike.finalised, alike.entries.imp ?_⟩
  intro entry entry' same
  exact ⟨same.1, same.2.mono h⟩

variable {table table' : SlotTable}

/-- A name has alike slots in alike tables. -/
theorem Alike.find? (alike : table.Alike x tainted table') (name : Symbol) :
    (table.find? name = none ∧ table'.find? name = none) ∨
      ∃ slot slot', table.find? name = some slot ∧ table'.find? name = some slot' ∧
        slot.Alike x tainted name slot' := by
  obtain ⟨entries, closed⟩ := table
  obtain ⟨entries', closed'⟩ := table'
  obtain ⟨-, alike⟩ := alike
  simp only [SlotTable.find?] at alike ⊢
  -- Induction on the entries, side by side; the first that has the name decides.
  induction alike with
  | nil => exact .inl ⟨rfl, rfl⟩
  | @cons entry entry' _ _ same _ ih =>
    obtain ⟨key, slot⟩ := entry
    obtain ⟨key', slot'⟩ := entry'
    obtain ⟨rfl, slots⟩ := same
    by_cases here : name = key'
    · subst here
      exact .inr ⟨slot, slot', by simp, by simp, slots⟩
    · simpa [List.lookup_cons, beq_false_of_ne here] using ih

theorem Alike.insert (alike : table.Alike x tainted table') {name : Symbol} {slot slot' : Slot}
    (slots : slot.Alike x tainted name slot') :
    (table.insert name slot).Alike x tainted (table'.insert name slot') := by
  obtain ⟨entries, closed⟩ := table
  obtain ⟨entries', closed'⟩ := table'
  refine ⟨alike.finalised, ?_⟩
  replace alike := alike.entries
  simp only [SlotTable.insert] at alike ⊢
  induction alike with
  | nil => exact .cons ⟨rfl, slots⟩ .nil
  | @cons entry entry' _ _ same rest ih =>
    unfold insertEntry
    rw [same.1]
    split
    · exact .cons ⟨rfl, slots⟩ rest
    · exact .cons same ih

/-! ### Changes of tables -/

/-- Changes of alike tables that are both refused, with the same error, or give alike tables. -/
inductive AlikeChanges (x : Secret) (tainted : Prop) :
    Except Error SlotTable → Except Error SlotTable → Prop where
  | ok {table table' : SlotTable} :
    table.Alike x tainted table' → AlikeChanges x tainted (.ok table) (.ok table')
  | error (e : Error) : AlikeChanges x tainted (.error e) (.error e)

theorem Alike.define (alike : table.Alike x tainted table') (name : Symbol)
    (datatype : Option Datatype) :
    AlikeChanges x tainted (table.define name datatype) (table'.define name datatype) := by
  unfold SlotTable.define contains
  rw [alike.finalised]
  split
  · exact .error _
  · rcases alike.find? name with ⟨none, none'⟩ | ⟨slot, slot', found, found', -⟩
    · rw [none, none']
      exact .ok (alike.insert (.refl name _))
    · rw [found, found']
      exact .error _

theorem Alike.set (alike : table.Alike x tainted table') (name : Symbol) (value : Value)
    (access : Access) :
    AlikeChanges x tainted (table.set name value access) (table'.set name value access) := by
  unfold SlotTable.set
  rcases alike.find? name with ⟨none, none'⟩ | ⟨slot, slot', found, found', slots⟩
  · rw [none, none']
    exact .error _
  · have written : AlikeChanges x tainted
        (.ok (table.insert name { slot with value := some value }))
        (.ok (table'.insert name { slot with value := some value })) :=
      .ok (alike.insert (.refl name _))
    rw [found, found']
    simp only [slots.permission, slots.datatype]
    split
    · exact .error _
    · split
      · split
        · exact written
        · exact .error _
      · exact written

theorem Alike.chmod (alike : table.Alike x tainted table') (name : Symbol)
    (flags : List PermissionFlag) :
    AlikeChanges x tainted ((table.chmod name flags).map Prod.snd)
      ((table'.chmod name flags).map Prod.snd) := by
  unfold SlotTable.chmod
  rw [alike.finalised]
  split
  · exact .error _
  · rcases alike.find? name with ⟨none, none'⟩ | ⟨slot, slot', found, found', slots⟩
    · rw [none, none']
      exact .error _
    · rw [found, found']
      simp only [slots.permission]
      exact .ok (alike.insert ⟨rfl, slots.datatype, slots.value⟩)

theorem Alike.finalise (alike : table.Alike x tainted table') :
    AlikeChanges x tainted (.ok table.finalise) (.ok table'.finalise) :=
  .ok ⟨rfl, alike.entries⟩

/-- A slot reads alike in alike tables, unless it gives the secret away. -/
theorem Alike.get (alike : table.Alike x tainted table') (name : Symbol) (access : Access) :
    table'.get name access = table.get name access ∨
      tainted ∧ name = x.name ∧ table.get name access = .ok (.integer x.value) := by
  unfold SlotTable.get
  rcases alike.find? name with ⟨none, none'⟩ | ⟨slot, slot', found, found', slots⟩
  · rw [none, none']
    exact .inl rfl
  · rw [found, found']
    simp only [slots.permission]
    split
    · exact .inl rfl
    · rcases slots.value with same | ⟨copied, named, secret, -⟩
      · rw [same]
        exact .inl rfl
      · rw [secret]
        exact .inr ⟨copied, named, rfl⟩

/-! ### Inheritance -/

theorem Alike.inheritAll {ancestor ancestor' : SlotTable} (alike : table.Alike x tainted table')
    (above : ancestor.Alike x tainted ancestor') :
    (table.inheritAll ancestor).Alike x tainted (table'.inheritAll ancestor') := by
  obtain ⟨entries, closed⟩ := ancestor
  obtain ⟨entries', closed'⟩ := ancestor'
  obtain ⟨-, above⟩ := above
  simp only [SlotTable.inheritAll] at above ⊢
  -- Induction on what is inherited, whatever the tables have got so far.
  induction above generalizing table table' with
  | nil => exact alike
  | @cons entry entry' _ _ same _ ih =>
    obtain ⟨name, slot⟩ := entry
    obtain ⟨name', slot'⟩ := entry'
    obtain ⟨rfl, slots⟩ := same
    exact ih (alike.insert slots.inherited)

end SlotTable

/-! ## Stores -/

namespace Secret

/-- The classes that may have the secret: its own, and those that have been made below it since. -/
def Taints (x : Secret) (s : Store) (id : ClassId) : Prop :=
  id = x.id ∨ x.old ≤ id ∧ s.Descends id x.id

theorem Taints.of_extends {s s' : Store} (extended : s.Extends s') {id : ClassId}
    (tainted : x.Taints s id) : x.Taints s' id := by
  rcases tainted with own | ⟨later, descends⟩
  · exact .inl own
  · exact .inr ⟨later, descends.of_extends extended⟩

/-- A new class may have the secret if a class above it may. -/
theorem taints_newClass {s : Store} (old : x.old ≤ s.classes.size) {parents : List ClassId} :
    (∃ id ∈ s.lineage parents, x.Taints s id) →
      x.Taints (s.newClass parents).2 s.classes.size := by
  rintro ⟨above, member, tainted⟩
  have below : (s.newClass parents).2.Descends s.classes.size above :=
    Store.descends_newClass member
  refine .inr ⟨old, ?_⟩
  rcases tainted with rfl | ⟨-, descends⟩
  · exact below
  · exact below.trans (descends.of_extends (.newClass s parents))

/-- Stores that differ at most in the secret and its copies, in which its class is sealed. -/
structure Alike (x : Secret) (s s' : Store) : Prop where
  frames : s'.frames = s.frames
  nextAddress : s'.nextAddress = s.nextAddress
  output : s'.output = s.output
  size : s'.classes.size = s.classes.size
  ancestors (id : ClassId) : (s'.classInfo id).ancestors = (s.classInfo id).ancestors
  slots (id : ClassId) : (s.slots id).Alike x (x.Taints s id) (s'.slots id)
  old : x.old ≤ s.classes.size
  sealed : (s.slots x.id).Sealed

/-- Ends of two computations with the same value or error, in stores that are alike. -/
inductive AlikeEnds (x : Secret) :
    EStateM.Result Error Store α → EStateM.Result Error Store α → Prop where
  | ok (a : α) {s s' : Store} : x.Alike s s' → AlikeEnds x (.ok a s) (.ok a s')
  | error (e : Error) {s s' : Store} : x.Alike s s' → AlikeEnds x (.error e s) (.error e s')

namespace Alike

variable {s s' : Store}

/-- Stores stay alike if the same is done to what has nothing to do with classes. -/
theorem of_classes_eq (alike : x.Alike s s') {t t' : Store} (classes : t.classes = s.classes)
    (classes' : t'.classes = s'.classes) (frames : t'.frames = t.frames)
    (nextAddress : t'.nextAddress = t.nextAddress) (output : t'.output = t.output) :
    x.Alike t t' where
  frames := frames
  nextAddress := nextAddress
  output := output
  size := by rw [classes, classes', alike.size]
  ancestors id := by
    have same := alike.ancestors id
    simp only [Store.classInfo, classes, classes'] at same ⊢
    exact same
  slots id := by
    have extended : s.Extends t := .of_classes_eq classes
    rw [Store.slots_eq_of_classes_eq classes, Store.slots_eq_of_classes_eq classes']
    exact (alike.slots id).mono (Taints.of_extends extended)
  old := by
    rw [classes]
    exact alike.old
  sealed := by
    rw [Store.slots_eq_of_classes_eq classes]
    exact alike.sealed

theorem setSlots (alike : x.Alike s s') (target : ClassId) {table table' : SlotTable}
    (tables : table.Alike x (x.Taints s target) table')
    (kept : target = x.id → table = s.slots x.id) :
    x.Alike (s.setSlots target table) (s'.setSlots target table') where
  frames := alike.frames
  nextAddress := alike.nextAddress
  output := alike.output
  size := by rw [Store.size_setSlots, Store.size_setSlots, alike.size]
  ancestors id := by rw [Store.ancestors_setSlots, Store.ancestors_setSlots, alike.ancestors]
  slots id := by
    have extended : s.Extends (s.setSlots target table) := .setSlots s target table
    refine SlotTable.Alike.mono (Taints.of_extends extended) ?_
    rw [Store.slots_setSlots, Store.slots_setSlots, alike.size]
    split
    · next here => exact here.1 ▸ tables
    · exact alike.slots id
  old := by
    rw [Store.size_setSlots]
    exact alike.old
  sealed := by
    rw [Store.slots_setSlots]
    split
    · next here => exact kept here.1.symm ▸ alike.sealed
    · exact alike.sealed

/-! ### New classes -/

theorem lineage (alike : x.Alike s s') (parents : List ClassId) :
    s'.lineage parents = s.lineage parents := by
  unfold Store.lineage
  simp only [alike.ancestors]

/-- A class inherits alike in alike stores.  It may get the secret if an ancestor has it. -/
theorem inheritance (alike : x.Alike s s') (ancestors : List ClassId) :
    (s.inheritance ancestors).Alike x (∃ id ∈ ancestors, x.Taints s id)
      (s'.inheritance ancestors) := by
  -- Induction from the farthest ancestor: every table is laid over what came before it.
  induction ancestors with
  | nil => exact .refl {}
  | cons id ancestors ih =>
    refine SlotTable.Alike.inheritAll (ih.mono ?_) ((alike.slots id).mono ?_)
    · rintro ⟨above, member, tainted⟩
      exact ⟨above, List.mem_cons_of_mem id member, tainted⟩
    · intro tainted
      exact ⟨id, List.mem_cons_self, tainted⟩

theorem newClass (alike : x.Alike s s') (parents : List ClassId) :
    x.Alike (s.newClass parents).2 (s'.newClass parents).2 where
  frames := alike.frames
  nextAddress := alike.nextAddress
  output := alike.output
  size := by simp [Store.newClass, alike.size]
  ancestors id := by
    rw [Store.classInfo_newClass, Store.classInfo_newClass, alike.size]
    split
    · exact alike.lineage parents
    · exact alike.ancestors id
  slots id := by
    unfold Store.slots
    rw [Store.classInfo_newClass, Store.classInfo_newClass, alike.size]
    split
    · next here =>
      subst here
      rw [alike.lineage]
      exact (alike.inheritance _).mono (taints_newClass alike.old)
    · exact (alike.slots id).mono (Taints.of_extends (.newClass s parents))
  old := Nat.le_trans alike.old (Store.Extends.newClass s parents).size
  sealed := by
    have made : x.id < s.classes.size := Store.made_of_finalised alike.sealed.finalised
    unfold Store.slots
    rw [Store.classInfo_newClass_of_made made]
    exact alike.sealed

/-! ### Steps -/

theorem ask (alike : x.Alike s s') {query : Store → Except Error α} (same : query s' = query s) :
    x.AlikeEnds (EvalM.ask query s) (EvalM.ask query s') := by
  unfold EvalM.ask
  rw [same]
  cases query s with
  | ok a => exact .ok a alike
  | error e => exact .error e alike

theorem nearest? (alike : x.Alike s s') (scope : Scope) (name : Symbol) :
    s'.nearest? scope name = s.nearest? scope name := by
  simp only [Store.nearest?, Store.frame, alike.frames]

theorem lookup (alike : x.Alike s s') (scope : Scope) (name : Symbol) :
    s'.lookup scope name = s.lookup scope name := by
  unfold Store.lookup Store.frame
  rw [alike.nearest?, alike.frames]

theorem setFrame (alike : x.Alike s s') (id : FrameId) (table : SlotTable) :
    x.Alike (s.setFrame id table) (s'.setFrame id table) := by
  refine alike.of_classes_eq rfl rfl ?_ alike.nextAddress alike.output
  simp only [Store.setFrame, alike.frames]

theorem define (alike : x.Alike s s') (scope : Scope) (name : Symbol) (value : Value) :
    x.AlikeEnds (EvalM.define scope name value s) (EvalM.define scope name value s') := by
  simp only [EvalM.define, EvalM.edit, Store.define, Store.frame, alike.frames]
  cases (s.frames[scope.frame]?.getD {}).defineValue name value with
  | ok table => exact .ok () (alike.setFrame scope.frame table)
  | error e => exact .error e alike

theorem assign (alike : x.Alike s s') (scope : Scope) (name : Symbol) (value : Value) :
    x.AlikeEnds (EvalM.assign scope name value s) (EvalM.assign scope name value s') := by
  simp only [EvalM.assign, EvalM.edit, Store.assign, Store.frame, alike.nearest?, alike.frames]
  cases s.nearest? scope name with
  | none => exact .error _ alike
  | some id =>
    simp only
    cases (s.frames[id]?.getD {}).set name value .outside with
    | ok table => exact .ok () (alike.setFrame id table)
    | error e => exact .error e alike

theorem enter (alike : x.Alike s s') (scope : Scope) :
    x.AlikeEnds (EvalM.enter scope s) (EvalM.enter scope s') := by
  unfold EvalM.enter Store.newFrame
  rw [alike.frames]
  exact .ok _ (alike.of_classes_eq rfl rfl rfl alike.nextAddress alike.output)

theorem makeClass (alike : x.Alike s s') (parents : List ClassId) :
    x.AlikeEnds (EvalM.newClass parents s) (EvalM.newClass parents s') := by
  have same : (s'.newClass parents).1 = (s.newClass parents).1 := alike.size
  simp only [EvalM.newClass, same]
  exact .ok _ (alike.newClass parents)

theorem alloc (alike : x.Alike s s') (make : Alloc α) :
    x.AlikeEnds (EvalM.alloc make s) (EvalM.alloc make s') := by
  unfold EvalM.alloc
  rw [alike.nextAddress]
  exact .ok _ (alike.of_classes_eq rfl rfl alike.frames rfl alike.output)

theorem print (alike : x.Alike s s') (text : String) :
    x.AlikeEnds (EvalM.print text s) (EvalM.print text s') := by
  unfold EvalM.print
  rw [alike.output]
  exact .ok () (alike.of_classes_eq rfl rfl alike.frames alike.nextAddress rfl)

/-- A change that alike tables go through alike keeps stores alike, if it leaves the sealed class
as it is. -/
theorem editSlots (alike : x.Alike s s') (target : ClassId)
    {change : SlotTable → Except Error SlotTable}
    (same : SlotTable.AlikeChanges x (x.Taints s target) (change (s.slots target))
      (change (s'.slots target)))
    (kept : target = x.id → (s.slots target).changed (change (s.slots target)) = s.slots target) :
    x.AlikeEnds (EvalM.editSlots target change s) (EvalM.editSlots target change s') := by
  simp only [EvalM.editSlots, EvalM.edit]
  generalize outcome : change (s.slots target) = changed at same kept
  generalize change (s'.slots target) = changed' at same
  cases same with
  | ok tables =>
    refine .ok () (alike.setSlots target tables ?_)
    intro own
    subst own
    exact kept rfl
  | error e => exact .error e alike

/-- A step that does not depend on the grants keeps stores alike. -/
theorem act_unguarded (alike : x.Alike s s') (action : Action α)
    (unguarded : action.isGuarded = false) : x.AlikeEnds (action.run s) (action.run s') := by
  have kept {target : ClassId} (own : target = x.id) :
      (s.slots target).changed (action.change (s.slots target)) = s.slots target := by
    subst own
    exact alike.sealed.changed_eq action unguarded
  cases action with
  | lookup scope name =>
    simp only [Action.run, EvalM.lookup]
    exact alike.ask (alike.lookup scope name)
  | define scope name value => exact alike.define scope name value
  | assign scope name value => exact alike.assign scope name value
  | enter scope => exact alike.enter scope
  | newClass parents => exact alike.makeClass parents
  | readSlot id name access => cases unguarded
  | defineSlot id name datatype =>
    exact alike.editSlots id ((alike.slots id).define name datatype) kept
  | writeSlot id name value access => cases unguarded
  | chmodSlot id name flags => exact alike.editSlots id ((alike.slots id).chmod name flags) kept
  | finalise id => exact alike.editSlots id (alike.slots id).finalise kept
  | pair first rest => exact alike.alloc (Alloc.pair first rest)
  | list items => exact alike.alloc (Alloc.list items)
  | closure kind params body scope =>
    exact alike.alloc do
      return Value.closure (← Alloc.fresh) kind params body scope
  | print text => exact alike.print text

/-- A write without a grant keeps stores alike. -/
theorem act_write (alike : x.Alike s s') {grants : Grants} (outside : x.id ∉ grants)
    (id : ClassId) (name : Symbol) (value : Value) :
    let action := Action.writeSlot id name value (grants.access id)
    x.AlikeEnds (action.run s) (action.run s') := by
  have same := (alike.slots id).set name value (grants.access id)
  simp only [Action.run]
  refine alike.editSlots id same ?_
  intro own
  subst own
  obtain ⟨e, refused⟩ := alike.sealed.set_outside name value
  rw [Grants.access_of_not_mem outside, refused]
  rfl

end Alike

/-- The stores in which the slot holds the one integer and the other are alike. -/
theorem alike_setSlots {s : Store} {slot : Slot} (sealed : (s.slots x.id).Sealed)
    (found : (s.slots x.id).find? x.name = some slot)
    (holds : slot.value = some (.integer x.value)) (old : x.old ≤ s.classes.size) :
    x.Alike s (s.setSlots x.id ((s.slots x.id).store x.name (.integer x.other))) := by
  have start : x.Alike s s :=
    ⟨rfl, rfl, rfl, rfl, fun _ => rfl, fun id => .refl (s.slots id), old, sealed⟩
  have tables : (s.slots x.id).Alike x (x.Taints s x.id)
      ((s.slots x.id).store x.name (.integer x.other)) := by
    have slots : slot.Alike x (x.Taints s x.id) x.name
        { slot with value := some (.integer x.other) } :=
      ⟨rfl, rfl, .inr ⟨.inl rfl, rfl, holds, rfl⟩⟩
    have written := (start.slots x.id).insert slots
    rw [SlotTable.insert_eq_self found] at written
    simpa [SlotTable.store, found] using written
  have changed := start.setSlots x.id tables fun _ => rfl
  rwa [Store.setSlots_eq_self] at changed

end Secret

end GuardedLisp
