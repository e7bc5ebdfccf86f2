import GuardedLisp.Proofs.Class.Frozen
import GuardedLisp.Proofs.Class.Sealed

/-!
# What becomes of slot tables

A step of evaluation does one of a few things to one slot table.  A frame may get a name together
with its value, or another value for a name that it has.  A class may also be closed, get a name
that is unset, or have the permission of a slot changed; and a new class gets copies of the slots
above it.

## Main definitions

* `SlotTable.Every`: all slots of a table have a property
* `SlotTable.Rebinds`, `SlotTable.Reshapes`: what a step may do to a frame and to a class
* `Slot.Lasts`: a property of slots that does not end by what is done to classes
* `Store.Holds`: all values in the slots of a store have a property

## Main results

* `Action.rebinds`, `Action.classes_after`: a step does no more than that
* `Action.every_slots`: a property that lasts is kept by every step
* `Store.Holds.after`: a step puts no other value into a slot than the one that it writes
* `Store.find?_inheritance`: what a new class has under a name
-/

namespace GuardedLisp

namespace SlotTable

variable {table : SlotTable}

/-! ## Names -/

theorem mem_names_iff {name : Symbol} : name ∈ table.names ↔ (table.find? name).isSome := by
  rw [names, List.mem_map, find?, List.lookup_isSome_iff]
  exact exists_congr fun entry => and_congr_right' (by rw [beq_iff_eq, eq_comm])

theorem names_insert_of_none {name : Symbol} (new : table.find? name = none) (slot : Slot) :
    (table.insert name slot).names = table.names ++ [name] := by
  obtain ⟨entries, finalised⟩ := table
  simp only [find?, names, insert] at new ⊢
  induction entries with
  | nil => rfl
  | cons entry entries ih =>
    rw [List.lookup_eq_none_iff, List.forall_mem_cons, ← List.lookup_eq_none_iff] at new
    have other : entry.1 ≠ name := (bne_iff_ne.mp new.1).symm
    rw [insertEntry, if_neg other, List.map_cons, List.map_cons, List.cons_append, ih new.2]

/-- No name gets a second slot. -/
theorem nodup_names_insert (nodup : table.names.Nodup) (name : Symbol) (slot : Slot) :
    (table.insert name slot).names.Nodup := by
  cases found : table.find? name with
  | some old => rwa [names_insert found]
  | none =>
    rw [names_insert_of_none found]
    have new : name ∉ table.names := by simp [mem_names_iff, found]
    refine List.nodup_append.2 ⟨nodup, by simp, ?_⟩
    simpa using fun other mem => ne_of_mem_of_not_mem mem new

/-- Of two slots that are inserted under a name the second one stays. -/
theorem insert_insert (table : SlotTable) (name : Symbol) (first second : Slot) :
    (table.insert name first).insert name second = table.insert name second := by
  obtain ⟨entries, finalised⟩ := table
  simp only [insert, mk.injEq, and_true]
  induction entries with
  | nil => simp [insertEntry]
  | cons entry entries ih =>
    by_cases same : entry.1 = name
    · simp [insertEntry, same]
    · simp [insertEntry, same, ih]

theorem contains_insert {name : Symbol} {slot : Slot} {other : Symbol}
    (had : table.contains other = true) : (table.insert name slot).contains other = true := by
  by_cases same : other = name
  · simp [contains, same]
  · rwa [contains, find?_insert_of_ne same]

theorem defineValue_eq (table : SlotTable) (name : Symbol) (value : Value) :
    table.defineValue name value =
      if table.finalised then .error (.denied .define name.name)
      else if table.contains name then .error (.alreadyDefined name.name)
      else .ok (table.insert name { value := some value }) := by
  unfold defineValue define
  split
  · rfl
  · split
    · rfl
    · simp only [Except.map, store, find?_insert_self, Option.getD_some, insert_insert]

/-! ## All slots of a table -/

/-- All slots of a table have a property. -/
def Every (p : Slot → Prop) (table : SlotTable) : Prop := ∀ entry ∈ table.entries, p entry.2

section Every

variable {p : Slot → Prop}

theorem Every.empty : Every p {} := nofun

theorem Every.of_find? (every : table.Every p) {name : Symbol} {slot : Slot}
    (found : table.find? name = some slot) : p slot :=
  every (name, slot) (mem_entries_of_find? found)

theorem Every.insert (every : table.Every p) (name : Symbol) {slot : Slot} (has : p slot) :
    (table.insert name slot).Every p := by
  obtain ⟨entries, finalised⟩ := table
  simp only [Every, SlotTable.insert] at every ⊢
  induction entries with
  | nil => simpa [insertEntry] using has
  | cons entry entries ih =>
    rw [List.forall_mem_cons] at every
    unfold insertEntry
    split
    · exact List.forall_mem_cons.2 ⟨has, every.2⟩
    · exact List.forall_mem_cons.2 ⟨every.1, ih every.2⟩

theorem Every.inheritAll (every : table.Every p) {ancestor : SlotTable}
    (above : ∀ entry ∈ ancestor.entries, p entry.2.inherited) :
    (table.inheritAll ancestor).Every p := by
  obtain ⟨entries, closed⟩ := ancestor
  simp only [SlotTable.inheritAll] at above ⊢
  induction entries generalizing table with
  | nil => exact every
  | cons entry entries ih =>
    rw [List.forall_mem_cons] at above
    exact ih (every.insert entry.1 above.1) above.2

end Every

/-! ## Inherited slots -/

theorem nodup_names_inheritAll (nodup : table.names.Nodup) (ancestor : SlotTable) :
    (table.inheritAll ancestor).names.Nodup := by
  unfold inheritAll
  induction ancestor.entries generalizing table with
  | nil => exact nodup
  | cons entry entries ih => exact ih (nodup_names_insert nodup entry.1 entry.2.inherited)

/-- What an ancestor has replaces what there was. -/
theorem find?_inheritAll {ancestor : SlotTable} (nodup : ancestor.names.Nodup) (table : SlotTable)
    (name : Symbol) :
    (table.inheritAll ancestor).find? name =
      ((ancestor.find? name).map Slot.inherited).or (table.find? name) := by
  obtain ⟨entries, closed⟩ := ancestor
  simp only [names, inheritAll, find?] at nodup ⊢
  induction entries generalizing table with
  | nil => rfl
  | cons entry entries ih =>
    obtain ⟨key, slot⟩ := entry
    obtain ⟨new, nodup⟩ := List.nodup_cons.mp nodup
    rw [List.foldl_cons, ih _ nodup]
    by_cases same : name = key
    · subst same
      have last : entries.lookup name = none := List.lookup_eq_none_iff.mpr fun entry mem =>
        bne_iff_ne.mpr fun again => new (List.mem_map.mpr ⟨entry, mem, again.symm⟩)
      rw [last, List.lookup_cons_self]
      exact find?_insert_self table name slot.inherited
    · rw [List.lookup_cons, beq_false_of_ne same]
      exact congrArg _ (find?_insert_of_ne same table slot.inherited)

/-! ## Changes of a table -/

/-- What a step may do to a frame if it writes a given value or none. -/
inductive Rebinds (table : SlotTable) (written? : Option Value) : SlotTable → Prop
  | same : Rebinds table written? table
  | bound {name : Symbol} {value : Value} :
      table.find? name = none → value ∈ written? →
      Rebinds table written? (table.insert name { value := some value })
  | written {name : Symbol} {slot : Slot} {value : Value} :
      table.find? name = some slot → value ∈ written? →
      Rebinds table written? (table.insert name { slot with value := some value })

/-- What a step may do to a class if it writes a given value or none. -/
inductive Reshapes (table : SlotTable) (written? : Option Value) : SlotTable → Prop
  | same : Reshapes table written? table
  | closed : Reshapes table written? table.finalise
  | declared {name : Symbol} (datatype : Option Datatype) :
      table.find? name = none → Reshapes table written? (table.insert name { datatype })
  | written {name : Symbol} {slot : Slot} {value : Value} :
      table.find? name = some slot →
      (∀ datatype ∈ slot.datatype, datatype.admits value.kind = true) → value ∈ written? →
      Reshapes table written? (table.insert name { slot with value := some value })
  | permitted {name : Symbol} {slot : Slot} (permission : Permission) :
      table.find? name = some slot →
      Reshapes table written? (table.insert name { slot with permission })

theorem Rebinds.contains {table' : SlotTable} {written? : Option Value}
    (h : table.Rebinds written? table') {name : Symbol} (had : table.contains name = true) :
    table'.contains name = true := by
  cases h with
  | same => exact had
  | bound | written => exact contains_insert had

theorem Reshapes.contains {table' : SlotTable} {written? : Option Value}
    (h : table.Reshapes written? table') {name : Symbol} (had : table.contains name = true) :
    table'.contains name = true := by
  cases h with
  | same | closed => exact had
  | declared | written | permitted => exact contains_insert had

theorem Reshapes.nodup_names {table' : SlotTable} {written? : Option Value}
    (h : table.Reshapes written? table') (nodup : table.names.Nodup) : table'.names.Nodup := by
  cases h with
  | same | closed => exact nodup
  | declared | written | permitted => exact nodup_names_insert nodup _ _

/-- What a slot gives is the value in it. -/
theorem exists_of_get_eq_ok {name : Symbol} {access : Access}
    {v : Value} (h : table.get name access = .ok v) :
    ∃ slot, table.find? name = some slot ∧ slot.value = some v := by
  unfold get at h
  split at h
  · cases h
  · next slot found =>
    split at h
    · cases h
    · split at h
      · next has => exact ⟨slot, found, Except.ok.inj h ▸ has⟩
      · cases h

/-- A write that is allowed puts a value into a slot that may hold it. -/
theorem reshapes_set {table' : SlotTable} {name : Symbol} {value : Value} {access : Access}
    (h : table.set name value access = .ok table') : table.Reshapes (some value) table' := by
  unfold set at h
  split at h
  · cases h
  · next slot found =>
    split at h
    · cases h
    · split at h
      · next datatype declared =>
        split at h
        · next admitted =>
          obtain rfl := Except.ok.inj h
          refine .written found ?_ rfl
          intro other same
          obtain rfl : datatype = other := Option.some.inj (declared.symm.trans same)
          exact admitted
        · cases h
      · next undeclared =>
        obtain rfl := Except.ok.inj h
        exact .written found (by simp [undeclared]) rfl

end SlotTable

/-- The value that a step writes. -/
def Action.value? : Action α → Option Value
  | .define _ _ value | .assign _ _ value | .writeSlot _ _ value _ => some value
  | _ => none

/-- The parents of the class that a step makes. -/
def Action.parents? : Action α → Option (List ClassId)
  | .newClass parents => some parents
  | _ => none

/-- What is done to the slots of a class is a change of its table. -/
theorem Action.reshapes_change (action : Action α) (table : SlotTable) :
    table.Reshapes action.value? (table.changed (action.change table)) := by
  cases action with
  | defineSlot target name datatype =>
    simp only [change, SlotTable.define]
    split
    · exact .same
    · split
      · exact .same
      · next new => exact .declared datatype (by simpa [SlotTable.contains] using new)
  | writeSlot target name value access =>
    rw [change]
    cases outcome : table.set name value access with
    | ok table' => exact SlotTable.reshapes_set outcome
    | error e => exact .same
  | chmodSlot target name flags =>
    simp only [change, SlotTable.chmod]
    split
    · exact .same
    · split
      · exact .same
      · next slot found => exact .permitted _ found
  | finalise target => exact .closed
  | _ => exact .same

namespace Store

variable {s : Store}

/-! ## Frames -/

theorem frame_newFrame (s : Store) (outer : List FrameId) (id : FrameId) :
    (s.newFrame outer).2.frame id = s.frame id := by
  simp only [frame, newFrame, Array.getElem?_push]
  split
  · next last => simp [last]
  · rfl

theorem frame_setFrame (s : Store) (id : FrameId) (table : SlotTable) (other : FrameId) :
    (s.setFrame id table).frame other =
      if other = id ∧ id < s.frames.size then table else s.frame other := by
  by_cases same : other = id
  · subst same
    by_cases made : other < s.frames.size
    · rw [frame_setFrame_self made, if_pos ⟨rfl, made⟩]
    · have none : (s.setFrame other table).frames = s.frames :=
        Array.setIfInBounds_eq_of_size_le (Nat.not_lt.mp made)
      rw [if_neg fun inside => made inside.2]
      simp only [frame, none]
  · rw [frame_setFrame_of_ne same, if_neg fun here => same here.1]

theorem rebinds_setFrame {id : FrameId} {table : SlotTable} {written? : Option Value}
    (h : (s.frame id).Rebinds written? table) (other : FrameId) :
    (s.frame other).Rebinds written? ((s.setFrame id table).frame other) := by
  rw [frame_setFrame]
  split
  · next here => rwa [here.1]
  · exact .same

theorem exists_of_lookup_eq_ok {scope : Scope} {name : Symbol} {v : Value}
    (h : s.lookup scope name = .ok v) :
    ∃ id slot, (s.frame id).find? name = some slot ∧ slot.value = some v := by
  unfold lookup at h
  split at h
  · cases h
  · next id _ => exact ⟨id, SlotTable.exists_of_get_eq_ok h⟩

/-- A new binding is inserted into the nearest frame of a scope, which does not have its name. -/
theorem of_define_eq_ok {s' : Store} {scope : Scope} {name : Symbol} {value : Value}
    (h : s.define scope name value = .ok s') :
    (s.frame scope.frame).find? name = none ∧
      s' = s.setFrame scope.frame ((s.frame scope.frame).insert name { value := some value }) := by
  unfold define at h
  rw [SlotTable.defineValue_eq] at h
  split at h
  · next table made =>
    obtain rfl := Except.ok.inj h
    split at made
    · cases made
    · split at made
      · cases made
      · next new =>
        obtain rfl := Except.ok.inj made
        exact ⟨by simpa [SlotTable.contains] using new, rfl⟩
  · cases h

theorem rebinds_define {s' : Store} {scope : Scope} {name : Symbol} {value : Value}
    (h : s.define scope name value = .ok s') (id : FrameId) :
    (s.frame id).Rebinds (some value) (s'.frame id) := by
  obtain ⟨new, rfl⟩ := of_define_eq_ok h
  exact rebinds_setFrame (.bound new rfl) id

theorem rebinds_assign {s' : Store} {scope : Scope} {name : Symbol} {value : Value}
    (h : s.assign scope name value = .ok s') (id : FrameId) :
    (s.frame id).Rebinds (some value) (s'.frame id) := by
  unfold assign at h
  split at h
  · cases h
  · next target nearest =>
    split at h
    · next table written =>
      obtain rfl := Except.ok.inj h
      obtain ⟨slot, found, -, rfl⟩ := SlotTable.exists_of_set_eq_ok written
      exact rebinds_setFrame (.written found rfl) id
    · cases h

end Store

/-- **What a step does to a frame.** -/
theorem Action.rebinds (action : Action α) (s : Store) (id : FrameId) :
    (s.frame id).Rebinds action.value? ((action.run.after s).frame id) := by
  cases action with
  | lookup scope name => exact (EvalM.after_ask _ s).symm ▸ .same
  | readSlot target name access => exact (EvalM.after_ask _ s).symm ▸ .same
  | define scope name value =>
    simp only [run, EvalM.define, EvalM.edit, EvalM.after]
    cases made : s.define scope name value with
    | ok s' => exact Store.rebinds_define made id
    | error e => exact .same
  | assign scope name value =>
    simp only [run, EvalM.assign, EvalM.edit, EvalM.after]
    cases made : s.assign scope name value with
    | ok s' => exact Store.rebinds_assign made id
    | error e => exact .same
  | enter scope => exact (s.frame_newFrame scope.chain id).symm ▸ .same
  | defineSlot target | writeSlot target | chmodSlot target | finalise target =>
    simp only [run]
    rw [EvalM.after_editSlots]
    split <;> exact .same
  | newClass | pair | list | closure | print => exact .same

/-- The classes after the slots of one have been changed, or left if the change is refused. -/
theorem EvalM.classes_after_editSlots (id : ClassId) (change : SlotTable → Except Error SlotTable)
    (s : Store) :
    ((editSlots id change).after s).classes =
      (s.setSlots id ((s.slots id).changed (change (s.slots id)))).classes := by
  rw [after_editSlots]
  cases change (s.slots id) with
  | ok table => rfl
  | error e => exact congrArg Store.classes (s.setSlots_eq_self id).symm

/-- **What a step does to the classes**: it makes one, or changes the slots of at most one. -/
theorem Action.classes_after (action : Action α) (s : Store) :
    (∃ parents ∈ action.parents?, (action.run.after s).classes = (s.newClass parents).2.classes) ∨
      ∃ id table, (s.slots id).Reshapes action.value? table ∧
        (action.run.after s).classes = (s.setSlots id table).classes := by
  have unchanged {s' : Store} (same : s'.classes = s.classes) :
      ∃ id table, (s.slots id).Reshapes action.value? table ∧
        s'.classes = (s.setSlots id table).classes :=
    ⟨0, s.slots 0, .same, by rw [same, s.setSlots_eq_self]⟩
  have edited (id : ClassId) := action.reshapes_change (s.slots id)
  cases action with
  | newClass parents => exact .inl ⟨parents, rfl, rfl⟩
  | lookup scope name => exact .inr (unchanged (congrArg Store.classes (EvalM.after_ask _ s)))
  | readSlot id name access => exact .inr (unchanged (congrArg Store.classes (EvalM.after_ask _ s)))
  | define scope name value =>
    exact .inr (unchanged (EvalM.after_edit_eq Store.classes (fun _ _ => Store.classes_define) s))
  | assign scope name value =>
    exact .inr (unchanged (EvalM.after_edit_eq Store.classes (fun _ _ => Store.classes_assign) s))
  | defineSlot id | writeSlot id | chmodSlot id | finalise id =>
    refine .inr ⟨id, _, edited id, ?_⟩
    simp only [run]
    exact EvalM.classes_after_editSlots id _ s
  | enter | pair | list | closure | print => exact .inr (unchanged rfl)

/-! ## What every step keeps -/

/-- A property of slots that does not end by what is done to classes, as long as only values with a
given property are written. -/
structure Slot.Lasts (p : Slot → Prop) (good : Value → Prop) : Prop where
  declared (datatype : Option Datatype) : p { datatype }
  written {slot : Slot} {value : Value} : p slot → good value →
    (∀ datatype ∈ slot.datatype, datatype.admits value.kind = true) →
    p { slot with value := some value }
  permitted {slot : Slot} (permission : Permission) : p slot → p { slot with permission }

section Lasts

variable {p : Slot → Prop} {good : Value → Prop} {s : Store}

theorem SlotTable.Every.reshapes (lasts : Slot.Lasts p good) {table table' : SlotTable}
    {written? : Option Value} (writes : ∀ value ∈ written?, good value)
    (h : table.Reshapes written? table') (every : table.Every p) : table'.Every p := by
  cases h with
  | same | closed => exact every
  | declared datatype => exact every.insert _ (lasts.declared datatype)
  | written found admitted mem =>
    exact every.insert _ (lasts.written (every.of_find? found) (writes _ mem) admitted)
  | permitted permission found =>
    exact every.insert _ (lasts.permitted permission (every.of_find? found))

theorem Store.every_inheritance (lasts : Slot.Lasts p good) (every : ∀ id, (s.slots id).Every p)
    (ancestors : List ClassId) : (s.inheritance ancestors).Every p := by
  unfold inheritance
  induction ancestors with
  | nil => exact .empty
  | cons id ancestors ih =>
    exact ih.inheritAll fun entry mem => lasts.permitted _ (every id entry mem)

theorem Store.slots_newClass (s : Store) (parents : List ClassId) (id : ClassId) :
    (s.newClass parents).2.slots id =
      if id = s.classes.size then s.inheritance (s.lineage parents) else s.slots id := by
  unfold slots
  rw [classInfo_newClass]
  split <;> rfl

/-- A property of slots that lasts is kept by every step. -/
theorem Action.every_slots (lasts : Slot.Lasts p good) (action : Action α)
    (writes : ∀ value ∈ action.value?, good value) (every : ∀ id, (s.slots id).Every p)
    (id : ClassId) : ((action.run.after s).slots id).Every p := by
  obtain ⟨parents, -, classes⟩ | ⟨target, table, reshapes, classes⟩ := action.classes_after s
  · rw [Store.slots_eq_of_classes_eq classes, Store.slots_newClass]
    split
    · exact Store.every_inheritance lasts every _
    · exact every id
  · rw [Store.slots_eq_of_classes_eq classes, Store.slots_setSlots]
    split
    · exact (every target).reshapes lasts writes reshapes
    · exact every id

end Lasts

/-- All values in the slots of a store have a property. -/
structure Store.Holds (good : Value → Prop) (s : Store) : Prop where
  frames (id : FrameId) : (s.frame id).Every fun slot => ∀ v ∈ slot.value, good v
  classes (id : ClassId) : (s.slots id).Every fun slot => ∀ v ∈ slot.value, good v

namespace Store.Holds

variable {good fair : Value → Prop} {s : Store}

theorem mono (weaker : ∀ v, good v → fair v) (holds : s.Holds good) : s.Holds fair where
  frames id entry mem v has := weaker v (holds.frames id entry mem v has)
  classes id entry mem v has := weaker v (holds.classes id entry mem v has)

theorem of_lookup (holds : s.Holds good) {scope : Scope} {name : Symbol} {v : Value}
    (found : s.lookup scope name = .ok v) : good v := by
  obtain ⟨id, slot, found, has⟩ := exists_of_lookup_eq_ok found
  exact (holds.frames id).of_find? found v has

theorem of_get (holds : s.Holds good) {id : ClassId} {name : Symbol} {access : Access} {v : Value}
    (found : (s.slots id).get name access = .ok v) : good v := by
  obtain ⟨slot, found, has⟩ := SlotTable.exists_of_get_eq_ok found
  exact (holds.classes id).of_find? found v has

/-- **No step puts another value into a slot** than the one that it writes. -/
theorem after (holds : s.Holds good) (action : Action α)
    (writes : ∀ v ∈ action.value?, good v) : (action.run.after s).Holds good := by
  constructor
  · intro id
    have rebinds := action.rebinds s id
    generalize (action.run.after s).frame id = table at rebinds
    cases rebinds with
    | same => exact holds.frames id
    | bound _ mem | written _ mem =>
      refine (holds.frames id).insert _ fun v has => ?_
      obtain rfl := Option.some.inj has
      exact writes _ mem
  · have lasts : Slot.Lasts (fun slot => ∀ v ∈ slot.value, good v) good := by
      constructor
      · nofun
      · intro slot value _ has _ v same
        obtain rfl := Option.some.inj same
        exact has
      · exact fun _ every => every
    exact action.every_slots lasts writes holds.classes

end Store.Holds

namespace Store

variable {s : Store}

theorem nodup_names_inheritance (s : Store) (ancestors : List ClassId) :
    (s.inheritance ancestors).names.Nodup := by
  unfold inheritance
  induction ancestors with
  | nil => exact List.nodup_nil
  | cons id ancestors ih => exact SlotTable.nodup_names_inheritAll ih (s.slots id)

/-- **What a new class has under a name** is a copy of what the first of its ancestors has that has
the name at all. -/
theorem find?_inheritance (nodup : ∀ id, (s.slots id).names.Nodup) (ancestors : List ClassId)
    (name : Symbol) :
    (s.inheritance ancestors).find? name =
      (ancestors.findSome? fun id => (s.slots id).find? name).map Slot.inherited := by
  -- Ancestors are copied from the last to the first, and what is copied later replaces.
  induction ancestors with
  | nil => rfl
  | cons id ancestors ih =>
    have nearer : s.inheritance (id :: ancestors) =
        (s.inheritance ancestors).inheritAll (s.slots id) := rfl
    rw [nearer, SlotTable.find?_inheritAll (nodup id), ih, List.findSome?_cons]
    cases (s.slots id).find? name <;> rfl

end Store

/-- In no class a name gets a second slot. -/
theorem Action.nodup_slots (action : Action α) {s : Store}
    (nodup : ∀ id, (s.slots id).names.Nodup) (id : ClassId) :
    ((action.run.after s).slots id).names.Nodup := by
  obtain ⟨parents, -, classes⟩ | ⟨target, table, reshapes, classes⟩ := action.classes_after s
  · rw [Store.slots_eq_of_classes_eq classes, Store.slots_newClass]
    split
    · exact s.nodup_names_inheritance _
    · exact nodup id
  · rw [Store.slots_eq_of_classes_eq classes, Store.slots_setSlots]
    split
    · exact reshapes.nodup_names (nodup target)
    · exact nodup id

end GuardedLisp
