import GuardedLisp.Interpreter
import GuardedLisp.Proofs.Run

/-!
# Finalised classes stay frozen

A slot table that is finalised keeps its names, permissions and datatypes, and the values that no
one may write.  `SlotTable.Frozen` says so of the table before and after.  One step keeps it
because declaring and changing permissions are refused once a table is finalised, and a write
changes nothing but a value that may be written.  A run keeps it since it is transitive.

## Main definitions

* `Permission.isLocked`: nobody may write
* `SlotTable.Frozen`: what a finalised table keeps

## Main results

* `Action.frozen_after`: a step leaves a finalised class frozen
* `Context.frozen_eval`: so does evaluation, with whatever it ends
-/

namespace GuardedLisp

/-- Whether a slot cannot be written, not even from inside. -/
def Permission.isLocked (p : Permission) : Bool := p.isVirtual || (!p.classWrite && !p.anyWrite)

theorem Permission.allowsWrite_of_isLocked {p : Permission} (locked : p.isLocked = true)
    (access : Access) : p.allowsWrite access = false := by
  unfold isLocked at locked
  unfold allowsWrite
  cases access <;> grind

/-- What a slot of a finalised table keeps. -/
structure Slot.Frozen (before after : Slot) : Prop where
  permission : after.permission = before.permission
  datatype : after.datatype = before.datatype
  value : before.permission.isLocked = true → after.value = before.value

/-- What a finalised table keeps: it stays finalised, no name comes or goes, and every slot keeps
its permission and datatype, and its value if nobody may write it. -/
structure SlotTable.Frozen (before after : SlotTable) : Prop where
  finalised : after.finalised = true
  names : after.names = before.names
  slot (name : Symbol) (old : Slot) :
    before.find? name = some old → ∃ new, after.find? name = some new ∧ old.Frozen new

namespace SlotTable

theorem Frozen.refl {table : SlotTable} (finalised : table.finalised = true) :
    table.Frozen table :=
  ⟨finalised, rfl, fun _ old found => ⟨old, found, rfl, rfl, fun _ => rfl⟩⟩

theorem Frozen.trans {before between after : SlotTable} (first : before.Frozen between)
    (second : between.Frozen after) : before.Frozen after := by
  refine ⟨second.finalised, second.names.trans first.names, ?_⟩
  intro name old found
  obtain ⟨mid, foundMid, keepMid⟩ := first.slot name old found
  obtain ⟨new, foundNew, keepNew⟩ := second.slot name mid foundMid
  refine ⟨new, foundNew, keepNew.permission.trans keepMid.permission,
    keepNew.datatype.trans keepMid.datatype, ?_⟩
  intro locked
  -- A locked slot has the same permission in between, so it is locked there too.
  have lockedMid : mid.permission.isLocked = true := keepMid.permission ▸ locked
  exact (keepNew.value lockedMid).trans (keepMid.value locked)

/-- A write that is allowed changes one value, and that one is not locked. -/
theorem exists_of_set_eq_ok {table table' : SlotTable} {name : Symbol} {value : Value}
    {access : Access} (h : table.set name value access = .ok table') :
    ∃ slot, table.find? name = some slot ∧ slot.permission.allowsWrite access = true ∧
      table' = table.insert name { slot with value := some value } := by
  unfold set at h
  split at h
  · cases h
  · next slot found =>
    split at h
    · cases h
    · next allowed =>
      refine ⟨slot, found, by simpa using allowed, ?_⟩
      split at h
      · split at h
        · exact (Except.ok.inj h).symm
        · cases h
      · exact (Except.ok.inj h).symm

theorem frozen_set {table table' : SlotTable} {name : Symbol} {value : Value} {access : Access}
    (finalised : table.finalised = true) (h : table.set name value access = .ok table') :
    table.Frozen table' := by
  obtain ⟨slot, found, allowed, rfl⟩ := exists_of_set_eq_ok h
  refine ⟨finalised, names_insert found _, ?_⟩
  intro other old foundOld
  by_cases same : other = name
  · subst same
    obtain rfl : slot = old := Option.some.inj (found.symm.trans foundOld)
    refine ⟨_, find?_insert_self table other _, rfl, rfl, ?_⟩
    intro locked
    rw [Permission.allowsWrite_of_isLocked locked] at allowed
    cases allowed
  · exact ⟨old, (find?_insert_of_ne same table _).trans foundOld, rfl, rfl, fun _ => rfl⟩

theorem define_of_finalised {table : SlotTable} (finalised : table.finalised = true)
    (name : Symbol) (datatype : Option Datatype) :
    table.define name datatype = .error (.denied .define name.name) := by
  unfold define
  rw [if_pos finalised]

theorem chmod_of_finalised {table : SlotTable} (finalised : table.finalised = true)
    (name : Symbol) (flags : List PermissionFlag) :
    table.chmod name flags = .error (.denied .chmod name.name) := by
  unfold chmod
  rw [if_pos finalised]

end SlotTable

/-- Whatever a step does to a finalised table leaves it frozen. -/
theorem Action.frozen_change (action : Action α) {table : SlotTable}
    (finalised : table.finalised = true) :
    table.Frozen (table.changed (action.change table)) := by
  cases action with
  | defineSlot target name datatype =>
    rw [change, SlotTable.define_of_finalised finalised]
    exact .refl finalised
  | chmodSlot target name flags =>
    rw [change, SlotTable.chmod_of_finalised finalised]
    exact .refl finalised
  | writeSlot target name value access =>
    rw [change]
    cases outcome : table.set name value access with
    | ok table' => exact SlotTable.frozen_set finalised outcome
    | error e => exact .refl finalised
  | finalise target => exact ⟨rfl, rfl, fun _ old found => ⟨old, found, rfl, rfl, fun _ => rfl⟩⟩
  | _ => exact .refl finalised

/-- A class with a finalised table has been made. -/
theorem Store.made_of_finalised {s : Store} {id : ClassId}
    (finalised : (s.slots id).finalised = true) : id < s.classes.size := by
  rcases Nat.lt_or_ge id s.classes.size with made | absent
  · exact made
  · have none : s.classes[id]? = none := Array.getElem?_eq_none absent
    simp [slots, classInfo, none] at finalised

/-- A step leaves a finalised class frozen. -/
theorem Action.frozen_after (action : Action α) {s : Store} {id : ClassId}
    (finalised : (s.slots id).finalised = true) :
    (s.slots id).Frozen ((action.run.after s).slots id) := by
  rw [action.slots_after (Store.made_of_finalised finalised)]
  split
  · exact action.frozen_change finalised
  · exact .refl finalised

/-- A run leaves a finalised class frozen. -/
theorem Store.frozen_of_reaches {s s' : Store} {id : ClassId} (run : s.Reaches s')
    (finalised : (s.slots id).finalised = true) : (s.slots id).Frozen (s'.slots id) := by
  -- Induction on the steps, the last one last: the class is still finalised before it.
  induction run with
  | refl => exact .refl finalised
  | tail _ step frozen =>
    obtain ⟨α, action, rfl⟩ := step
    exact frozen.trans (action.frozen_after frozen.finalised)

/-- **A finalised class stays frozen**: after any evaluation, under any grants and with whatever it
ends, the class is finalised, its slots have the names, permissions and datatypes that they had,
and those that are virtual or have both write bits off have the values that they had. -/
theorem Context.frozen_eval (ctx : Context) (scope : Scope) (term : Value) {s : Store}
    {id : ClassId} (finalised : (s.slots id).finalised = true) :
    (s.slots id).Frozen ((EvalM.after (ctx.eval scope term) s).slots id) :=
  Store.frozen_of_reaches (ctx.reaches_eval scope term s) finalised

/-- A finalised class with a slot `x` that nobody may write and a slot `y` that is open to all. -/
def pointStore : Store :=
  let locked : Permission := { classWrite := false, anyWrite := false }
  let slots : SlotTable :=
    { entries :=
        [(⟨35, "x"⟩, { permission := locked, value := some (.integer 1) }), (⟨36, "y"⟩, {})]
      finalised := true }
  { Store.initial with classes := #[{}, ⟨[baseClass], [baseClass], slots⟩] }

/-- The term `(class-set! point y 2)`. -/
def setPoint : Value :=
  .applied (.builtin (.form .classSet)) [.classObject 1, .symbol ⟨36, "y"⟩, .integer 2]

theorem frozen_eval_setPoint :
    (pointStore.slots 1).finalised = true ∧
    (pointStore.slots 1).Frozen
      ((EvalM.after (Context.eval {} globalScope setPoint) pointStore).slots 1) ∧
    ((EvalM.after (Context.eval {} globalScope setPoint) pointStore).slots 1).get ⟨36, "y"⟩
      .outside = .ok (.integer 2) :=
  ⟨rfl, Context.frozen_eval {} globalScope setPoint rfl, by rfl⟩

end GuardedLisp
