import GuardedLisp.Proofs.Renaming.Value

/-!
# Renaming in the store

Every operation on slot tables and on the store treats the values that it stores as black boxes: it
looks at their kind at most.  Names it compares, and symbols that are not the same stay so when they
are renamed.  So it does with renamed names and values what it does with these as they were.

## Main definitions

* `SlotTable.rename`, `Store.rename`: renaming everywhere
* `Store.Within`, `Store.Below`: a store whose addresses and numbers are of a kind, or whose
  addresses are below a bound

## Main results

* one lemma for each operation, which says that it commutes with renaming
* `Store.rename_congr`: a renaming matters only at the addresses and numbers that a store has
-/

namespace GuardedLisp

/-- A slot with its value renamed. -/
def Slot.rename (f : Renaming) (slot : Slot) : Slot :=
  { slot with value := slot.value.map (Value.rename f) }

theorem Slot.rename_nothing (slot : Slot) : slot.rename .nothing = slot := by
  rw [rename, show Value.rename .nothing = id from funext Value.rename_nothing]
  exact congrArg (fun value => { slot with value }) (congrFun Option.map_id slot.value)

namespace SlotTable

/-- An entry with its name and its value renamed. -/
def renameEntry (f : Renaming) (entry : Symbol × Slot) : Symbol × Slot :=
  (entry.1.rename f, entry.2.rename f)

/-- A table with its names and values renamed. -/
def rename (f : Renaming) (table : SlotTable) : SlotTable :=
  { table with entries := table.entries.map (renameEntry f) }

/-- All addresses in a table are of one kind, and the numbers of its symbols are of another. -/
structure Within (p : Address → Prop) (q : Nat → Prop) (table : SlotTable) : Prop where
  name : ∀ entry ∈ table.entries, q entry.1.id
  value : ∀ entry ∈ table.entries, ∀ v ∈ entry.2.value, v.Within p q

/-- All addresses in a table are below a bound. -/
abbrev Below (bound : Address) (table : SlotTable) : Prop :=
  table.Within (· < bound) fun _ => True

variable {f g : Renaming} {p p' : Address → Prop} {q q' : Nat → Prop}

theorem rename_congr (addresses : ∀ a, p a → f.address a = g.address a)
    (numbers : ∀ n, q n → f.number n = g.number n) {table : SlotTable}
    (within : table.Within p q) : table.rename f = table.rename g := by
  unfold rename
  congr 1
  refine List.map_congr_left fun entry mem => Prod.ext ?_ ?_
  · exact Symbol.rename_congr (numbers _ (within.name entry mem))
  · refine congrArg (fun value => { entry.2 with value }) (Option.map_congr fun v held => ?_)
    exact Value.rename_congr addresses numbers (within.value entry mem v held)

theorem rename_nothing (table : SlotTable) : table.rename .nothing = table := by
  have same : renameEntry .nothing = id :=
    funext fun entry => Prod.ext rfl (Slot.rename_nothing entry.2)
  rw [rename, same, List.map_id]

theorem within_of_rename {table : SlotTable} (same : table.rename f = table) :
    table.Within (fun a => f.address a = a) fun n => f.number n = n := by
  have entries : table.entries.map (renameEntry f) = table.entries.map id :=
    (congrArg SlotTable.entries same).trans (List.map_id _).symm
  have entry := List.map_inj_left.mp entries
  constructor
  · exact fun other mem => congrArg (fun entry => entry.1.id) (entry other mem)
  · intro other mem v held
    have slot := congrArg (fun entry => entry.2.value) (entry other mem)
    simp only [renameEntry, Slot.rename, Option.mem_def.mp held, Option.map_some, id_eq,
      Option.some.injEq] at slot
    exact Value.within_of_rename slot

theorem within_mono (addresses : ∀ a, p a → p' a) (numbers : ∀ n, q n → q' n)
    {table : SlotTable} (within : table.Within p q) : table.Within p' q' where
  name entry mem := numbers _ (within.name entry mem)
  value entry mem v held := Value.within_mono addresses numbers (within.value entry mem v held)

variable (f) (table : SlotTable) (name : Symbol)

theorem find?_rename :
    (table.rename f).find? (name.rename f) = (table.find? name).map (Slot.rename f) := by
  obtain ⟨entries, finalised⟩ := table
  simp only [find?, rename]
  induction entries with
  | nil => rfl
  | cons entry entries ih =>
    obtain ⟨key, slot⟩ := entry
    have keys : (name.rename f == key.rename f) = (name == key) := by
      rw [Bool.eq_iff_iff, beq_iff_eq, beq_iff_eq, Symbol.rename_inj]
    simp only [List.map_cons, renameEntry, List.lookup_cons, keys, ih]
    cases name == key <;> rfl

@[simp] theorem contains_rename :
    (table.rename f).contains (name.rename f) = table.contains name := by
  simp only [contains, find?_rename, Option.isSome_map]

theorem insert_rename (slot : Slot) :
    (table.rename f).insert (name.rename f) (slot.rename f) =
      (table.insert name slot).rename f := by
  obtain ⟨entries, finalised⟩ := table
  simp only [insert, rename, mk.injEq, and_true]
  induction entries with
  | nil => rfl
  | cons entry entries ih =>
    simp only [List.map_cons, insertEntry, renameEntry, Symbol.rename_inj]
    split
    · rfl
    · rw [List.map_cons, ← ih]
      rfl

theorem define_rename (datatype : Option Datatype) :
    (table.rename f).define (name.rename f) datatype =
      (table.define name datatype).map (rename f) := by
  simp only [define, contains_rename, Symbol.name_rename]
  rw [show (table.rename f).finalised = table.finalised from rfl]
  split
  · rfl
  · split
    · rfl
    · exact congrArg Except.ok (insert_rename f table name { datatype })

theorem store_rename (value : Value) :
    (table.rename f).store (name.rename f) (value.rename f) =
      (table.store name value).rename f := by
  rw [store, store, ← insert_rename, find?_rename]
  cases table.find? name <;> rfl

theorem defineValue_rename (value : Value) :
    (table.rename f).defineValue (name.rename f) (value.rename f) =
      (table.defineValue name value).map (rename f) := by
  rw [defineValue, defineValue, define_rename]
  cases table.define name none with
  | error e => rfl
  | ok table => exact congrArg Except.ok (store_rename f table name value)

theorem set_rename (value : Value) (access : Access) :
    (table.rename f).set (name.rename f) (value.rename f) access =
      (table.set name value access).map (rename f) := by
  simp only [set, find?_rename, Value.kind_rename, Symbol.name_rename]
  cases table.find? name with
  | none => rfl
  | some slot =>
    simp only [Option.map_some]
    rw [show (slot.rename f).permission = slot.permission from rfl,
      show (slot.rename f).datatype = slot.datatype from rfl]
    split
    · rfl
    · have written := congrArg (Except.ok (ε := Error))
        (insert_rename f table name { slot with value := some value })
      split
      · split
        · exact written
        · rfl
      · exact written

theorem get_rename (access : Access) :
    (table.rename f).get (name.rename f) access =
      (table.get name access).map (Value.rename f) := by
  simp only [get, find?_rename, Symbol.name_rename]
  cases table.find? name with
  | none => rfl
  | some slot =>
    simp only [Option.map_some]
    rw [show (slot.rename f).permission = slot.permission from rfl,
      show (slot.rename f).value = slot.value.map (Value.rename f) from rfl]
    split
    · rfl
    · cases slot.value <;> rfl

theorem chmod_rename (flags : List PermissionFlag) :
    (table.rename f).chmod (name.rename f) flags =
      (table.chmod name flags).map fun changed => (changed.1, changed.2.rename f) := by
  simp only [chmod, find?_rename, Symbol.name_rename]
  rw [show (table.rename f).finalised = table.finalised from rfl]
  split
  · rfl
  · cases table.find? name with
    | none => rfl
    | some slot =>
      exact congrArg (fun table => Except.ok (_, table)) (insert_rename f table name
        { slot with permission := slot.permission.applyAll flags })

theorem inheritAll_rename (ancestor : SlotTable) :
    (table.rename f).inheritAll (ancestor.rename f) = (table.inheritAll ancestor).rename f := by
  obtain ⟨entries, finalised⟩ := ancestor
  unfold inheritAll
  rw [show (rename f ⟨entries, finalised⟩).entries =
    entries.map (renameEntry f) from rfl]
  induction entries generalizing table with
  | nil => rfl
  | cons entry entries ih =>
    simp only [List.map_cons, List.foldl_cons]
    rw [← ih]
    exact congrArg (fun table => List.foldl _ table _)
      (insert_rename f table entry.1 entry.2.inherited)

end SlotTable

/-- A class with its slots renamed. -/
def ClassInfo.rename (f : Renaming) (info : ClassInfo) : ClassInfo :=
  { info with slots := info.slots.rename f }

namespace Store

/-- A store with its addresses and symbols renamed, where `next` is the address that the next new
value gets. -/
def rename (f : Renaming) (next : Address) (s : Store) : Store where
  frames := s.frames.map (SlotTable.rename f)
  classes := s.classes.map (ClassInfo.rename f)
  nextAddress := next
  output := s.output

/-- All addresses in a store are of one kind, and the numbers of its symbols are of another. -/
structure Within (p : Address → Prop) (q : Nat → Prop) (s : Store) : Prop where
  frames : ∀ table ∈ s.frames, table.Within p q
  classes : ∀ info ∈ s.classes, info.slots.Within p q

/-- All addresses in a store are below a bound. -/
abbrev Below (bound : Address) (s : Store) : Prop := s.Within (· < bound) fun _ => True

section Within

variable {f g : Renaming} {p p' : Address → Prop} {q q' : Nat → Prop} {next bound : Address}
  {s : Store}

theorem rename_congr (addresses : ∀ a, p a → f.address a = g.address a)
    (numbers : ∀ n, q n → f.number n = g.number n) (within : s.Within p q) :
    s.rename f next = s.rename g next := by
  simp only [rename, mk.injEq, and_true]
  constructor
  · exact Array.map_congr_left fun table mem =>
      SlotTable.rename_congr addresses numbers (within.frames table mem)
  · refine Array.map_congr_left fun info mem => ?_
    simp only [ClassInfo.rename,
      SlotTable.rename_congr addresses numbers (within.classes info mem)]

theorem rename_nothing (s : Store) : s.rename .nothing next = { s with nextAddress := next } := by
  have frames : s.frames.map (SlotTable.rename .nothing) = s.frames := by
    rw [show SlotTable.rename .nothing = id from funext SlotTable.rename_nothing, Array.map_id]
  have classes : s.classes.map (ClassInfo.rename .nothing) = s.classes := by
    have same : ClassInfo.rename .nothing = id := by
      funext info
      rw [ClassInfo.rename, SlotTable.rename_nothing]
      rfl
    rw [same, Array.map_id]
  rw [rename, frames, classes]

/-- What stays as it is where a store is of that kind leaves the store as it is. -/
theorem rename_eq_self (addresses : ∀ a, p a → f.address a = a)
    (numbers : ∀ n, q n → f.number n = n) (within : s.Within p q) :
    s.rename f next = { s with nextAddress := next } :=
  (rename_congr addresses numbers within).trans (rename_nothing s)

/-- **A store that is left as it is has no address and no number that changes.** -/
theorem within_of_rename (same : s.rename f next = s) :
    s.Within (fun a => f.address a = a) fun n => f.number n = n where
  frames table mem := by
    have frames : s.frames.map (SlotTable.rename f) = s.frames.map id :=
      (congrArg Store.frames same).trans (Array.map_id _).symm
    exact SlotTable.within_of_rename (Array.map_inj_left.mp frames table mem)
  classes info mem := by
    have classes : s.classes.map (ClassInfo.rename f) = s.classes.map id :=
      (congrArg Store.classes same).trans (Array.map_id _).symm
    have slots := congrArg ClassInfo.slots (Array.map_inj_left.mp classes info mem)
    exact SlotTable.within_of_rename slots

theorem within_mono (addresses : ∀ a, p a → p' a) (numbers : ∀ n, q n → q' n)
    (within : s.Within p q) : s.Within p' q' where
  frames table mem := SlotTable.within_mono addresses numbers (within.frames table mem)
  classes info mem := SlotTable.within_mono addresses numbers (within.classes info mem)

theorem moving_congr {f g : Address → Address} (agree : ∀ a < bound, f a = g a)
    (below : s.Below bound) : s.rename f next = s.rename g next :=
  rename_congr (f := f) (g := g) agree (fun _ _ => rfl) below

theorem moving_eq_self {f : Address → Address} (fixed : ∀ a < bound, f a = a)
    (below : s.Below bound) : s.rename f next = { s with nextAddress := next } :=
  rename_eq_self (f := f) fixed (fun _ _ => rfl) below

/-- A store that has no address that `skipping` moves is below its bound. -/
theorem below_of_rename_skipping (same : s.rename (skipping bound) next = s) : s.Below bound :=
  within_mono (fun _ => lt_of_skipping_eq) (fun _ _ => trivial) (within_of_rename same)

theorem below_mono {other : Address} (le : bound ≤ other) (below : s.Below bound) :
    s.Below other :=
  within_mono (fun _ small => Nat.lt_of_lt_of_le small le) (fun _ => id) below

end Within

variable (f : Renaming) (next : Address) (s : Store)

@[simp] theorem frame_rename (id : FrameId) :
    (s.rename f next).frame id = (s.frame id).rename f := by
  simp only [frame, rename, Array.getElem?_map]
  cases s.frames[id]? <;> rfl

@[simp] theorem classInfo_rename (id : ClassId) :
    (s.rename f next).classInfo id = (s.classInfo id).rename f := by
  simp only [classInfo, rename, Array.getElem?_map]
  cases s.classes[id]? <;> rfl

@[simp] theorem slots_rename (id : ClassId) :
    (s.rename f next).slots id = (s.slots id).rename f := by
  rw [slots, classInfo_rename]
  rfl

theorem setFrame_rename (id : FrameId) (table : SlotTable) :
    (s.rename f next).setFrame id (table.rename f) = (s.setFrame id table).rename f next := by
  simp only [setFrame, rename, mk.injEq, and_true]
  exact (Array.map_setIfInBounds ..).symm

theorem setSlots_rename (id : ClassId) (table : SlotTable) :
    (s.rename f next).setSlots id (table.rename f) = (s.setSlots id table).rename f next := by
  simp only [setSlots, rename, mk.injEq, and_true, true_and]
  apply Array.ext_getElem?
  intro other
  simp only [Array.getElem?_modify, Array.getElem?_map]
  split
  · cases s.classes[other]? <;> rfl
  · rfl

@[simp] theorem nearest?_rename (scope : Scope) (name : Symbol) :
    (s.rename f next).nearest? scope (name.rename f) = s.nearest? scope name := by
  simp only [nearest?, frame_rename, SlotTable.contains_rename]

theorem lookup_rename (scope : Scope) (name : Symbol) :
    (s.rename f next).lookup scope (name.rename f) =
      (s.lookup scope name).map (Value.rename f) := by
  simp only [lookup, nearest?_rename, Symbol.name_rename]
  split
  · rfl
  · simp only [frame_rename, SlotTable.get_rename]

theorem define_rename (scope : Scope) (name : Symbol) (value : Value) :
    (s.rename f next).define scope (name.rename f) (value.rename f) =
      (s.define scope name value).map (rename f next) := by
  simp only [define, frame_rename, SlotTable.defineValue_rename]
  cases (s.frame scope.frame).defineValue name value with
  | error e => rfl
  | ok table => exact congrArg Except.ok (setFrame_rename f next s scope.frame table)

theorem assign_rename (scope : Scope) (name : Symbol) (value : Value) :
    (s.rename f next).assign scope (name.rename f) (value.rename f) =
      (s.assign scope name value).map (rename f next) := by
  simp only [assign, nearest?_rename, Symbol.name_rename]
  split
  · rfl
  · next id _ =>
    simp only [frame_rename, SlotTable.set_rename]
    cases (s.frame id).set name value .outside with
    | error e => rfl
    | ok table => exact congrArg Except.ok (setFrame_rename f next s id table)

theorem newFrame_rename (outer : List FrameId) :
    (s.rename f next).newFrame outer =
      ((s.newFrame outer).1, (s.newFrame outer).2.rename f next) := by
  simp [newFrame, rename, SlotTable.rename]

@[simp] theorem lineage_rename (parents : List ClassId) :
    (s.rename f next).lineage parents = s.lineage parents := by
  simp only [lineage, classInfo_rename]
  rfl

theorem inheritance_rename (ancestors : List ClassId) :
    (s.rename f next).inheritance ancestors = (s.inheritance ancestors).rename f := by
  unfold inheritance
  induction ancestors with
  | nil => rfl
  | cons id ancestors ih =>
    rw [List.foldr_cons, List.foldr_cons, ih, slots_rename, SlotTable.inheritAll_rename]

theorem newClass_rename (parents : List ClassId) :
    (s.rename f next).newClass parents =
      ((s.newClass parents).1, (s.newClass parents).2.rename f next) := by
  simp only [newClass, lineage_rename, inheritance_rename]
  simp [rename, ClassInfo.rename]

end Store

end GuardedLisp
