import GuardedLisp.Interpreter
import GuardedLisp.Proofs.Class.Frozen
import GuardedLisp.Proofs.Record

/-!
# Sealed classes stay out of reach

A class is sealed if it is finalised and none of its slots is open to anyone.  Inside it can only
be a method of its own, and a method is only called once a slot of the class has been read.  So
whoever starts without a grant for the class never gets one: every read of its slots is refused,
and every write.

## Main definitions

* `SlotTable.Sealed`: finalised, with no slot that anyone may read or write
* `Event.Spares`: an event that neither opens a class nor reads a slot of it

## Main results

* `Simulation.sparing`: what is done without a grant for a sealed class leaves it as it is
* `Context.sealed_eval`: so does evaluation, and it never has a grant for the class
-/

namespace GuardedLisp

/-- Finalised, with no slot that anyone may read or write. -/
structure SlotTable.Sealed (table : SlotTable) : Prop where
  finalised : table.finalised = true
  closed : ∀ entry ∈ table.entries,
    entry.2.permission.anyRead = false ∧ entry.2.permission.anyWrite = false

namespace SlotTable

theorem mem_entries_of_find? {table : SlotTable} {name : Symbol} {slot : Slot}
    (h : table.find? name = some slot) : (name, slot) ∈ table.entries := by
  obtain ⟨entries, finalised⟩ := table
  simp only [find?] at h ⊢
  induction entries with
  | nil => cases h
  | cons entry entries ih =>
    rw [List.lookup_cons] at h
    split at h
    · next same =>
      obtain rfl := Option.some.inj h
      obtain rfl := eq_of_beq same
      exact List.mem_cons_self
    · exact List.mem_cons_of_mem entry (ih h)

namespace Sealed

variable {table : SlotTable} (sealed : table.Sealed)

include sealed

/-- Nothing is read from a sealed table from outside. -/
theorem get_outside (name : Symbol) : ∃ e, table.get name .outside = .error e := by
  unfold get
  split
  · exact ⟨_, rfl⟩
  · next slot found =>
    have closed : slot.permission.anyRead = false :=
      (sealed.closed _ (mem_entries_of_find? found)).1
    exact ⟨.denied .read name.name, by simp [Permission.allowsRead, closed]⟩

/-- Nothing is written to a sealed table from outside. -/
theorem set_outside (name : Symbol) (value : Value) :
    ∃ e, table.set name value .outside = .error e := by
  unfold set
  split
  · exact ⟨_, rfl⟩
  · next slot found =>
    have closed : slot.permission.anyWrite = false :=
      (sealed.closed _ (mem_entries_of_find? found)).2
    exact ⟨.denied .write name.name, by simp [Permission.allowsWrite, closed]⟩

/-- A step that does not depend on the grants leaves a sealed table as it is. -/
theorem changed_eq (action : Action α) (unguarded : action.isGuarded = false) :
    table.changed (action.change table) = table := by
  cases action with
  | defineSlot target name datatype =>
    rw [Action.change, define_of_finalised sealed.finalised]
    rfl
  | chmodSlot target name flags =>
    rw [Action.change, chmod_of_finalised sealed.finalised]
    rfl
  | finalise target =>
    show table.finalise = table
    unfold finalise
    rw [← sealed.finalised]
  | writeSlot target name value access => cases unguarded
  | _ => rfl

end Sealed

end SlotTable

/-- A step leaves the slots of a sealed class as they are if its own change does. -/
theorem Action.slots_after_of_kept (action : Action α) {s : Store} {id : ClassId}
    (sealed : (s.slots id).Sealed)
    (kept : action.target? = some id →
      (s.slots id).changed (action.change (s.slots id)) = s.slots id) :
    (action.run.after s).slots id = s.slots id := by
  rw [action.slots_after (Store.made_of_finalised sealed.finalised)]
  split
  · next target => exact kept target
  · rfl

/-- An event that concerns a class neither by a grant nor by a read that succeeds. -/
def Event.Spares (id : ClassId) : Event → Prop
  | .call c => id ∉ c.grants
  | .read target _ _ outcome => target = id → ∃ e, outcome = .error e

/-- A record in which a class has given slots and has been spared so far. -/
structure Record.Spares (id : ClassId) (table : SlotTable) (r : Record) : Prop where
  slots : r.store.slots id = table
  events : ∀ event ∈ r.events, event.Spares id

theorem Grants.access_of_not_mem {grants : Grants} {id : ClassId} (outside : id ∉ grants) :
    grants.access id = .outside :=
  if_neg outside

namespace Record.Spares

variable {id : ClassId} {table : SlotTable}

theorem bind {x : Recorder α} {f : α → Recorder β}
    (first : ∀ r : Record, r.Spares id table → (x.after r).Spares id table)
    (rest : ∀ a (r : Record), r.Spares id table → ((f a).after r).Spares id table) (r : Record)
    (spares : r.Spares id table) : (Recorder.after (x >>= f) r).Spares id table := by
  have begun := first r spares
  rw [Recorder.after_bind]
  unfold Recorder.after at begun
  cases outcome : x r with
  | ok a r' =>
    rw [outcome] at begun
    exact rest a r' begun
  | error e r' =>
    rw [outcome] at begun
    exact begun

variable (sealed : table.Sealed)

include sealed

/-- A sealed class is spared by a step that leaves its slots alone. -/
theorem act (action : Action α)
    (kept : action.target? = some id → table.changed (action.change table) = table)
    (quiet : ∀ outcome, action.events outcome = []) (r : Record) (spares : r.Spares id table) :
    ((Recorder.act action).after r).Spares id table := by
  obtain ⟨rfl, events⟩ := spares
  rw [Recorder.after_act, quiet]
  exact ⟨action.slots_after_of_kept sealed kept, events⟩

theorem act_unguarded (action : Action α) (unguarded : action.isGuarded = false) (r : Record)
    (spares : r.Spares id table) : ((Recorder.act action).after r).Spares id table := by
  refine act sealed action (fun _ => sealed.changed_eq action unguarded) (fun _ => ?_) r spares
  cases action with
  | readSlot target name access => cases unguarded
  | _ => rfl

/-- Without a grant nothing is written to a sealed class. -/
theorem act_write {g : Grants} (outside : id ∉ g) (target : ClassId) (name : Symbol)
    (value : Value) (r : Record) (spares : r.Spares id table) :
    ((Recorder.act (.writeSlot target name value (g.access target))).after r).Spares id table := by
  refine act sealed _ (fun same => ?_) (fun _ => rfl) r spares
  obtain rfl : target = id := Option.some.inj same
  obtain ⟨e, refused⟩ := sealed.set_outside name value
  rw [Action.change, Grants.access_of_not_mem outside, refused]
  rfl

/-- Without a grant nothing is read from a sealed class, so what follows a read is under a grant
for another class. -/
theorem bind_read {g : Grants} (outside : id ∉ g) (target : ClassId) (name : Symbol)
    {f : Value → Recorder β}
    (rest : id ∉ target :: g →
      ∀ v (r : Record), r.Spares id table → ((f v).after r).Spares id table)
    (r : Record) (spares : r.Spares id table) :
    (Recorder.after (Recorder.act (.readSlot target name (g.access target)) >>= f) r).Spares
      id table := by
  rw [Recorder.after_bind, Recorder.act_readSlot]
  by_cases same : target = id
  · -- The read is of the sealed class: it is refused, and nothing follows.
    subst same
    obtain ⟨e, refused⟩ := sealed.get_outside name
    rw [spares.slots, Grants.access_of_not_mem outside, refused]
    refine ⟨spares.slots, ?_⟩
    intro event member
    rcases List.mem_cons.mp member with rfl | earlier
    · exact fun _ => ⟨e, rfl⟩
    · exact spares.events event earlier
  · -- The read is of another class, and so is the grant for what follows.
    have spared (outcome : Except Error Value) : Record.Spares id table
        { r with events := .read target name (g.access target) outcome :: r.events } := by
      refine ⟨spares.slots, ?_⟩
      intro event member
      rcases List.mem_cons.mp member with rfl | earlier
      · exact fun target => absurd target same
      · exact spares.events event earlier
    have granted : id ∉ target :: g := by
      rw [List.mem_cons, not_or]
      exact ⟨Ne.symm same, outside⟩
    cases (r.store.slots target).get name (g.access target) with
    | ok v => exact rest granted v _ (spared _)
    | error e => exact spared _

omit sealed in
theorem calling {call : Call} (outside : id ∉ call.grants) {x : Recorder α}
    (kept : ∀ r : Record, r.Spares id table → (x.after r).Spares id table) (r : Record)
    (spares : r.Spares id table) : ((Recorder.calling call x).after r).Spares id table := by
  refine kept _ ⟨spares.slots, ?_⟩
  intro event member
  rcases List.mem_cons.mp member with rfl | earlier
  · exact outside
  · exact spares.events event earlier

end Record.Spares

/-- Computations that spare a sealed class, compared under grants that leave it out. -/
def Simulation.sparing (id : ClassId) {table : SlotTable} (sealed : table.Sealed) :
    Simulation Recorder Recorder where
  under g _ := id ∉ g
  rel x _ := ∀ r : Record, r.Spares id table → (Recorder.after x r).Spares id table
  rel_pure _ _ spares := spares
  rel_fail _ _ spares := spares
  rel_bind := .bind
  rel_during application x _ kept r spares :=
    (Recorder.after_during application x r).symm ▸ kept r spares
  rel_calling _ _ _ _ outside kept := .calling outside kept
  rel_act := .act_unguarded sealed
  rel_write target name value outside := .act_write sealed outside target name value
  rel_read target name _ _ outside rest := .bind_read sealed outside target name rest

/-- **A sealed class is out of reach without a grant.**  However an evaluation ends that starts
without a grant for a sealed class: no call is made under a grant for the class, every read of a
slot of the class fails, and the slots of the class are what they were. -/
theorem Context.sealed_eval (ctx : Context) (scope : Scope) (term : Value) {s : Store}
    {id : ClassId} (sealed : (s.slots id).Sealed) (outside : id ∉ ctx.grants) :
    (∀ call, .call call ∈ ctx.events scope term s → id ∉ call.grants) ∧
    (∀ name access outcome, .read id name access outcome ∈ ctx.events scope term s →
      ∃ e, outcome = .error e) ∧
    (EvalM.after (ctx.eval scope term) s).slots id = s.slots id := by
  let start : Record := { store := s }
  have spares : (Recorder.after (ctx.eval scope term) start).Spares id (s.slots id) :=
    (Simulation.sparing id sealed).rel_eval ctx outside scope term start
      ⟨rfl, fun event member => absurd member List.not_mem_nil⟩
  -- The record ends in the store in which evaluation ends.
  have same := Recorder.store_after _ _ start (ctx.erase_eval scope term start)
  refine ⟨?_, ?_, ?_⟩
  · intro call member
    exact spares.events _ member
  · intro name access outcome member
    exact spares.events _ member rfl
  · rw [← spares.slots, same]

/-- A sealed class with one slot. -/
def vault (secret : Int64) : Store :=
  let hidden : Permission := { anyRead := false, anyWrite := false }
  let slots : SlotTable :=
    { entries := [(⟨35, "secret"⟩, { permission := hidden, value := some (.integer secret) })]
      finalised := true }
  { Store.initial with classes := #[{}, ⟨[baseClass], [baseClass], slots⟩] }

theorem sealed_vault (secret : Int64) : ((vault secret).slots 1).Sealed := by
  refine ⟨rfl, fun entry member => ?_⟩
  obtain rfl := List.mem_singleton.mp member
  exact ⟨rfl, rfl⟩

/-- The term `((lambda (copy) (class-chmod! copy secret any-read) (copy secret)) (class vault))`. -/
def openCopy : Value :=
  let copy : Value := .symbol ⟨36, "copy"⟩
  let secret : Value := .symbol ⟨35, "secret"⟩
  let opened : Value :=
    .applied (.builtin (.form .classChmod)) [copy, secret, .symbol ⟨37, "any-read"⟩]
  let opener : Value :=
    .applied (.builtin (.form .lambda)) [.applied copy [], opened, .applied copy [secret]]
  .applied opener [.applied (.builtin (.form .newClass)) [.classObject 1]]

theorem sealed_eval_openCopy :
    (∀ call, .call call ∈ Context.events {} globalScope openCopy (vault 41) → 1 ∉ call.grants) ∧
    (∀ name access outcome,
      .read 1 name access outcome ∈ Context.events {} globalScope openCopy (vault 41) →
        ∃ e, outcome = .error e) ∧
    (EvalM.after (Context.eval {} globalScope openCopy) (vault 41)).slots 1 = (vault 41).slots 1 :=
  Context.sealed_eval {} globalScope openCopy (sealed_vault 41) List.not_mem_nil

end GuardedLisp
