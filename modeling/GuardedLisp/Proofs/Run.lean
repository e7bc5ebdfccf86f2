import GuardedLisp.Proofs.Simulation
import Mathlib.Control.Monad.Basic
import Mathlib.Logic.Relation

/-!
# Runs

A run takes a store to another by steps.  Evaluation is a run, whether it ends with a value or with
an error, so what every step keeps is kept by every evaluation.

A step concerns the slots of at most one class, and makes one of the changes of a slot table there.

## Main definitions

* `EvalM.after`, `EvalM.outcome`: where a computation ends, and with what
* `Store.Step`, `Store.Reaches`: a step between stores, and a run of steps
* `Action.target?`, `Action.change`: the class whose slots a step changes, and how

## Main results

* `Context.reaches_eval`: evaluation is a run
* `Action.slots_after`: the slots of a class after a step
-/

namespace GuardedLisp

/-- The term of a call, all of whose pairs are made at one address. -/
def Value.applied (head : Value) (args : List Value) : Value :=
  .pair 0 head (args.foldr (.pair 0) .nil)

namespace EvalM

/-- The store in which a computation ends. -/
def after (x : EvalM α) (s : Store) : Store :=
  match x s with
  | .ok _ s => s
  | .error _ s => s

/-- What a computation ends with. -/
def outcome (x : EvalM α) (s : Store) : Except Error α :=
  match x s with
  | .ok a _ => .ok a
  | .error e _ => .error e

theorem eq_ok_of_outcome {x : EvalM α} {s : Store} {a : α} (value : x.outcome s = .ok a) :
    x s = .ok a (x.after s) := by
  unfold outcome at value
  unfold after
  split at value
  · next computed => rw [computed, Except.ok.inj value]
  · cases value

theorem bind_of_ok {x : EvalM α} {s s' : Store} {a : α} (ran : x s = .ok a s') (g : α → EvalM β) :
    (x >>= g) s = g a s' := by
  simp only [bind, EStateM.bind, ran]

theorem bind_of_error {x : EvalM α} {s s' : Store} {e : Error} (ran : x s = .error e s')
    (g : α → EvalM β) : (x >>= g) s = .error e s' := by
  simp only [bind, EStateM.bind, ran]

/-- What succeeds in two parts succeeds in each of them. -/
theorem exists_of_bind_eq_ok {x : EvalM α} {g : α → EvalM β} {s s'' : Store} {b : β}
    (ran : (x >>= g) s = .ok b s'') : ∃ a s', x s = .ok a s' ∧ g a s' = .ok b s'' := by
  cases first : x s with
  | ok a s' => exact ⟨a, s', rfl, bind_of_ok first g ▸ ran⟩
  | error e s' =>
    rw [bind_of_error first] at ran
    cases ran

/-- Only errors are looked at when an application is named. -/
theorem of_during_eq_ok {application : Value} {x : EvalM α} {s s' : Store} {a : α}
    (ran : x.during application s = .ok a s') : x s = .ok a s' := by
  simp only [during] at ran
  split at ran
  · next computed =>
    cases ran
    exact computed
  · cases ran

theorem exists_of_during_eq_error {application : Value} {x : EvalM α} {s s' : Store} {e : Error}
    (failed : x.during application s = .error e s') : ∃ e', x s = .error e' s' := by
  simp only [during] at failed
  split at failed
  · cases failed
  · next e' s' computed =>
    cases failed
    exact ⟨e', computed⟩

theorem after_bind (x : EvalM α) (f : α → EvalM β) (s : Store) :
    after (x >>= f) s =
      match x.outcome s with
      | .ok a => (f a).after (x.after s)
      | .error _ => x.after s := by
  simp only [after, outcome, bind, EStateM.bind]
  cases x s <;> rfl

theorem outcome_bind (x : EvalM α) (f : α → EvalM β) (s : Store) :
    outcome (x >>= f) s =
      match x.outcome s with
      | .ok a => (f a).outcome (x.after s)
      | .error e => .error e := by
  simp only [after, outcome, bind, EStateM.bind]
  cases x s <;> rfl

@[simp] theorem after_during (application : Value) (x : EvalM α) (s : Store) :
    (x.during application).after s = x.after s := by
  simp only [after, during]
  cases x s <;> rfl

/-- Only an error is changed by naming the application. -/
theorem outcome_during_eq_ok {application : Value} {x : EvalM α} {s : Store} {a : α} :
    (x.during application).outcome s = .ok a ↔ x.outcome s = .ok a := by
  simp only [outcome, during]
  cases x s <;> simp

end EvalM

/-! ## Steps and runs -/

namespace Store

/-- One step of evaluation, whether it succeeds or is refused. -/
def Step (s s' : Store) : Prop := ∃ (α : Type) (action : Action α), action.run.after s = s'

/-- Steps in a row. -/
abbrev Reaches : Store → Store → Prop := Relation.ReflTransGen Step

theorem reaches_act (action : Action α) (s : Store) : Reaches s (action.run.after s) :=
  .single ⟨α, action, rfl⟩

end Store

theorem Store.reaches_bind {x : EvalM α} {f : α → EvalM β} (first : ∀ s, Reaches s (x.after s))
    (rest : ∀ a s, Reaches s ((f a).after s)) (s : Store) :
    Reaches s (EvalM.after (x >>= f) s) := by
  have begun : Reaches s (x.after s) := first s
  rw [EvalM.after_bind]
  split
  · next a _ => exact begun.trans (rest a (x.after s))
  · exact begun

/-- Computations that are runs. -/
def Simulation.reaching : Simulation EvalM EvalM where
  under _ _ := True
  rel x _ := ∀ s, Store.Reaches s (EvalM.after x s)
  rel_pure _ _ := .refl
  rel_fail _ _ := .refl
  rel_bind first rest := Store.reaches_bind first rest
  rel_during application x _ run s := (EvalM.after_during application x s).symm ▸ run s
  rel_calling _ _ _ _ _ run := run
  rel_act action _ := Store.reaches_act action
  rel_write _ _ _ _ := Store.reaches_act _
  rel_read _ _ _ _ _ rest := Store.reaches_bind (Store.reaches_act _) (rest trivial)

/-- **Evaluation is a run**, with whatever it ends and whatever the grants are. -/
theorem Context.reaches_eval (ctx : Context) (scope : Scope) (term : Value) (s : Store) :
    s.Reaches (EvalM.after (ctx.eval scope term) s) :=
  Simulation.reaching.rel_eval ctx trivial scope term s

/-! ## The slots of a class -/

/-- The class whose slots a step may change. -/
def Action.target? : Action α → Option ClassId
  | .defineSlot id _ _ => some id
  | .writeSlot id _ _ _ => some id
  | .chmodSlot id _ _ => some id
  | .finalise id => some id
  | _ => none

/-- The change that a step makes to the slots of its class. -/
def Action.change : Action α → SlotTable → Except Error SlotTable
  | .defineSlot _ name datatype, table => table.define name datatype
  | .writeSlot _ name value access, table => table.set name value access
  | .chmodSlot _ name flags, table => (table.chmod name flags).map Prod.snd
  | .finalise _, table => .ok table.finalise
  | _, table => .ok table

/-- The table after a change, which is the old one if the change is refused. -/
def SlotTable.changed (table : SlotTable) : Except Error SlotTable → SlotTable
  | .ok table => table
  | .error _ => table

namespace EvalM

/-- What no change touches is as it was, also if the change is refused. -/
theorem after_edit_eq (field : Store → β) {change : Store → Except Error Store}
    (same : ∀ s s', change s = .ok s' → field s' = field s) (s : Store) :
    field ((edit change).after s) = field s := by
  unfold after edit
  cases outcome : change s with
  | ok s' => exact same s s' outcome
  | error e => rfl

theorem after_ask (query : Store → Except Error α) (s : Store) : (ask query).after s = s := by
  unfold after ask
  cases query s <;> rfl

theorem outcome_ask (query : Store → Except Error α) (s : Store) :
    (ask query).outcome s = query s := by
  unfold outcome ask
  cases query s <;> rfl

theorem after_editSlots (id : ClassId) (change : SlotTable → Except Error SlotTable) (s : Store) :
    (editSlots id change).after s =
      match change (s.slots id) with
      | .ok table => s.setSlots id table
      | .error _ => s := by
  simp only [after, editSlots, edit]
  cases change (s.slots id) <;> rfl

theorem slots_after_editSlots {s : Store} {id : ClassId} (made : id < s.classes.size)
    (target : ClassId) (change : SlotTable → Except Error SlotTable) :
    ((editSlots target change).after s).slots id =
      if target = id then (s.slots id).changed (change (s.slots id)) else s.slots id := by
  rw [after_editSlots]
  by_cases same : target = id
  · subst same
    rw [if_pos rfl]
    cases change (s.slots target) with
    | ok table => exact Store.slots_setSlots_self made table
    | error e => rfl
  · rw [if_neg same]
    cases change (s.slots target) with
    | ok table => exact Store.slots_setSlots_of_ne (Ne.symm same) table
    | error e => rfl

end EvalM

/-- A step changes the slots of its own class, unless it is refused, and of no other class that has
been made. -/
theorem Action.slots_after (action : Action α) {s : Store} {id : ClassId}
    (made : id < s.classes.size) :
    (action.run.after s).slots id =
      if action.target? = some id then (s.slots id).changed (action.change (s.slots id))
      else s.slots id := by
  cases action with
  | lookup scope name => exact congrArg (Store.slots · id) (EvalM.after_ask _ s)
  | define scope name value =>
    refine Store.slots_eq_of_classes_eq ?_ id
    exact EvalM.after_edit_eq Store.classes (fun _ _ => Store.classes_define) s
  | assign scope name value =>
    refine Store.slots_eq_of_classes_eq ?_ id
    exact EvalM.after_edit_eq Store.classes (fun _ _ => Store.classes_assign) s
  | newClass parents =>
    exact congrArg ClassInfo.slots (Store.classInfo_newClass_of_made made parents)
  | readSlot target name access => exact congrArg (Store.slots · id) (EvalM.after_ask _ s)
  | defineSlot target | writeSlot target | chmodSlot target | finalise target =>
    simp only [run, target?, Option.some.injEq]
    exact EvalM.slots_after_editSlots made target _
  | enter scope => rfl
  | pair first rest => rfl
  | list items => rfl
  | closure kind params body scope => rfl
  | print text => rfl

end GuardedLisp
