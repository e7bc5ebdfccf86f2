import GuardedLisp.Permission
import GuardedLisp.Value.Basic

/-!
# Slot tables

A `SlotTable` gives slots to names.  A slot has a permission, may be declared with a datatype, and
stays unset until it is first written.  A table can be finalised: from then on no name is added to
it and no permission in it changes, while values may still be written.

Scope frames and classes both keep their names in slot tables.  An operation that is refused gives
an error and no table, so there is nothing to undo.  That all checks come before the first write is
therefore not something that can be said here: it is in the type of the operations.
-/

namespace GuardedLisp

/-- What a slot table keeps for one name. -/
structure Slot where
  permission : Permission := {}
  datatype : Option Datatype := none
  value : Option Value := none
deriving DecidableEq, Repr

instance : Inhabited Slot := ⟨{}⟩

namespace Slot

/-- The copy that a subclass gets, which is never virtual. -/
def inherited (slot : Slot) : Slot :=
  { slot with permission := { slot.permission with isVirtual := false } }

end Slot

/-- Slots by name. -/
structure SlotTable where
  entries : List (Symbol × Slot) := []
  finalised : Bool := false
deriving DecidableEq, Repr

instance : Inhabited SlotTable := ⟨{}⟩

namespace SlotTable

/-- The slot of a name. -/
def find? (table : SlotTable) (name : Symbol) : Option Slot := table.entries.lookup name

/-- Whether a name has a slot. -/
def contains (table : SlotTable) (name : Symbol) : Bool := (table.find? name).isSome

/-- The names that have a slot. -/
def names (table : SlotTable) : List Symbol := table.entries.map Prod.fst

/-- Entries in which a name has a given slot; a name that is new comes last. -/
def insertEntry (name : Symbol) (slot : Slot) : List (Symbol × Slot) → List (Symbol × Slot)
  | [] => [(name, slot)]
  | entry :: entries =>
    if entry.1 = name then (name, slot) :: entries
    else entry :: insertEntry name slot entries

/-- The table in which a name has a given slot. -/
def insert (table : SlotTable) (name : Symbol) (slot : Slot) : SlotTable :=
  { table with entries := insertEntry name slot table.entries }

@[simp] theorem finalised_insert (table : SlotTable) (name : Symbol) (slot : Slot) :
    (table.insert name slot).finalised = table.finalised := rfl

theorem lookup_insertEntry_self (name : Symbol) (slot : Slot) (entries : List (Symbol × Slot)) :
    (insertEntry name slot entries).lookup name = some slot := by
  induction entries with
  | nil => simp [insertEntry]
  | cons entry entries ih =>
    obtain ⟨key, old⟩ := entry
    unfold insertEntry
    split
    · simp
    · next other => simp [List.lookup_cons, beq_false_of_ne (Ne.symm other), ih]

theorem lookup_insertEntry_of_ne {name other : Symbol} (h : other ≠ name) (slot : Slot)
    (entries : List (Symbol × Slot)) :
    (insertEntry name slot entries).lookup other = entries.lookup other := by
  induction entries with
  | nil => simp [insertEntry, List.lookup_cons, beq_false_of_ne h]
  | cons entry entries ih =>
    obtain ⟨key, old⟩ := entry
    unfold insertEntry
    split
    · next same =>
      obtain rfl : key = name := same
      simp [List.lookup_cons, beq_false_of_ne h]
    · simp [List.lookup_cons, ih]

@[simp] theorem find?_insert_self (table : SlotTable) (name : Symbol) (slot : Slot) :
    (table.insert name slot).find? name = some slot :=
  lookup_insertEntry_self name slot table.entries

theorem find?_insert_of_ne {name other : Symbol} (h : other ≠ name) (table : SlotTable)
    (slot : Slot) : (table.insert name slot).find? other = table.find? other :=
  lookup_insertEntry_of_ne h slot table.entries

/-- Nothing changes if a name is given the slot that it has. -/
theorem insert_eq_self {table : SlotTable} {name : Symbol} {slot : Slot}
    (h : table.find? name = some slot) : table.insert name slot = table := by
  obtain ⟨entries, finalised⟩ := table
  simp only [find?, insert, mk.injEq, and_true] at h ⊢
  induction entries with
  | nil => simp at h
  | cons entry entries ih =>
    obtain ⟨key, old⟩ := entry
    unfold insertEntry
    split
    · next same =>
      obtain rfl : key = name := same
      simpa [eq_comm] using h
    · next other =>
      rw [List.lookup_cons, beq_false_of_ne (Ne.symm other)] at h
      rw [ih h]

/-- A slot that a table has may be replaced without a change of the names or their order. -/
theorem names_insert {table : SlotTable} {name : Symbol} {old : Slot}
    (h : table.find? name = some old) (slot : Slot) :
    (table.insert name slot).names = table.names := by
  obtain ⟨entries, finalised⟩ := table
  simp only [find?, names, insert] at h ⊢
  induction entries with
  | nil => simp at h
  | cons entry entries ih =>
    unfold insertEntry
    split
    · next same => simp [same]
    · next other =>
      rw [List.lookup_cons, beq_false_of_ne (Ne.symm other)] at h
      simp [ih h]

/-- The table that is closed to changes of its shape. -/
def finalise (table : SlotTable) : SlotTable := { table with finalised := true }

/-- Declares a new unset name, open to all. -/
def define (table : SlotTable) (name : Symbol) (datatype : Option Datatype) :
    Except Error SlotTable :=
  if table.finalised then .error (.denied .define name.name)
  else if table.contains name then .error (.alreadyDefined name.name)
  else .ok (table.insert name { datatype })

/-- Writes a value with no question asked, under a name that may be new. -/
def store (table : SlotTable) (name : Symbol) (value : Value) : SlotTable :=
  table.insert name { (table.find? name).getD {} with value := some value }

/-- Declares a new name that has a value from the start. -/
def defineValue (table : SlotTable) (name : Symbol) (value : Value) : Except Error SlotTable :=
  (table.define name none).map fun table => table.store name value

/-- Writes a value if the permission allows it and the datatype admits it. -/
def set (table : SlotTable) (name : Symbol) (value : Value) (access : Access) :
    Except Error SlotTable :=
  match table.find? name with
  | none => .error (.missingSymbol name.name)
  | some slot =>
    if !slot.permission.allowsWrite access then .error (.denied .write name.name)
    else match slot.datatype with
      | some datatype =>
        if datatype.admits value.kind then
          .ok (table.insert name { slot with value := some value })
        else .error (.type (.declared name.name datatype value.kind) none)
      | none => .ok (table.insert name { slot with value := some value })

/-- The value of a name if the permission allows it to be read. -/
def get (table : SlotTable) (name : Symbol) (access : Access) : Except Error Value :=
  match table.find? name with
  | none => .error (.missingSymbol name.name)
  | some slot =>
    if !slot.permission.allowsRead access then .error (.denied .read name.name)
    else match slot.value with
      | some value => .ok value
      | none => .error (.unsetValue name.name)

/-- Changes the permission of a name, and gives the new one. -/
def chmod (table : SlotTable) (name : Symbol) (flags : List PermissionFlag) :
    Except Error (Permission × SlotTable) :=
  if table.finalised then .error (.denied .chmod name.name)
  else match table.find? name with
    | none => .error (.missingSymbol name.name)
    | some slot =>
      let permission := slot.permission.applyAll flags
      .ok (permission, table.insert name { slot with permission })

/-- Takes over a slot from an ancestor in place of what the table had under its name. -/
def inherit (table : SlotTable) (name : Symbol) (slot : Slot) : SlotTable :=
  table.insert name slot.inherited

/-- Takes over all slots of an ancestor. -/
def inheritAll (table : SlotTable) (ancestor : SlotTable) : SlotTable :=
  ancestor.entries.foldl (fun table entry => table.inherit entry.1 entry.2) table

/-- The names with a value, and their values. -/
def values (table : SlotTable) : List (Symbol × Value) :=
  table.entries.filterMap fun entry => entry.2.value.map fun value => (entry.1, value)

end SlotTable

end GuardedLisp
