import GuardedLisp.Proofs.Run

/-!
# Records of an evaluation

What goes on while a term is evaluated cannot be seen in the result.  A `Recorder` is a machine
that evaluates and writes down the calls that are begun and the slots of classes that are read.
Without its record it does what evaluation does, so its record is about evaluation.

## Main definitions

* `Event`: what is written down, a call with its grants or a slot that is read
* `Recorder`: the machine that keeps a record
* `Context.events`: the events of an evaluation

## Main results

* `Context.erase_eval`: the recorder ends as evaluation does, in the same store
-/

namespace GuardedLisp

/-- What happens while a term is evaluated. -/
inductive Event where
  /-- A call begins, under its grants. -/
  | call (call : Call)
  /-- A slot of a class is read, with or without success. -/
  | read (id : ClassId) (name : Symbol) (access : Access) (outcome : Except Error Value)

/-- The value that an event has brought out of a class. -/
def Event.value? : Event → Option Value
  | .read _ _ _ (.ok v) => some v
  | _ => none

/-- A store and the events so far, the latest first. -/
structure Record where
  store : Store
  events : List Event := []

/-- Computations that work on a store, may fail, and keep a record. -/
abbrev Recorder := EStateM Error Record

/-- The events of a step that has ended. -/
def Action.events : Action α → Except Error α → List Event
  | .readSlot id name access, outcome => [.read id name access outcome]
  | _, _ => []

namespace Recorder

/-- Takes a step and writes it down. -/
def act (action : Action α) : Recorder α := fun r =>
  match action.run r.store with
  | .ok a s => .ok a ⟨s, action.events (.ok a) ++ r.events⟩
  | .error e s => .error e ⟨s, action.events (.error e) ++ r.events⟩

/-- Names the application that an error of a computation came out of. -/
def during (application : Value) (x : Recorder α) : Recorder α := fun r =>
  match x r with
  | .ok a r => .ok a r
  | .error e r => .error (e.during application.text) r

/-- Writes down that a call begins. -/
def calling (call : Call) (x : Recorder α) : Recorder α := fun r =>
  x { r with events := .call call :: r.events }

instance : Machine Recorder where
  act := act
  fail e := throw e
  during := during
  calling := calling

/-- The record with which a computation ends. -/
def after (x : Recorder α) (r : Record) : Record :=
  match x r with
  | .ok _ r => r
  | .error _ r => r

/-- How a computation ends, without its record. -/
def erase (x : Recorder α) (r : Record) : EStateM.Result Error Store α :=
  match x r with
  | .ok a r => .ok a r.store
  | .error e r => .error e r.store

theorem store_after (x : Recorder α) (y : EvalM α) (r : Record) (h : x.erase r = y r.store) :
    (x.after r).store = y.after r.store := by
  unfold EvalM.after
  rw [← h]
  unfold after erase
  cases x r <;> rfl

theorem after_bind (x : Recorder α) (f : α → Recorder β) (r : Record) :
    after (x >>= f) r =
      match x r with
      | .ok a r => (f a).after r
      | .error _ r => r := by
  simp only [after, bind, EStateM.bind]
  cases x r <;> rfl

theorem after_during (application : Value) (x : Recorder α) (r : Record) :
    (x.during application).after r = x.after r := by
  simp only [after, during]
  cases x r <;> rfl

theorem erase_bind {x : Recorder α} {y : EvalM α} {f : α → Recorder β} {g : α → EvalM β}
    (first : ∀ r, x.erase r = y r.store) (rest : ∀ a r, (f a).erase r = g a r.store) (r : Record) :
    erase (x >>= f) r = (y >>= g) r.store := by
  simp only [erase, bind, EStateM.bind] at first rest ⊢
  -- What the second computation does first is what the first one does without its record.
  rw [← first r]
  cases x r with
  | ok a r => exact rest a r
  | error e r => rfl

theorem erase_during (application : Value) {x : Recorder α} {y : EvalM α}
    (same : ∀ r, x.erase r = y r.store) (r : Record) :
    (x.during application).erase r = y.during application r.store := by
  simp only [erase, during, EvalM.during] at same ⊢
  rw [← same r]
  cases x r <;> rfl

theorem erase_act (action : Action α) (r : Record) : (act action).erase r = action.run r.store := by
  simp only [erase, act]
  cases action.run r.store <;> rfl

theorem after_act (action : Action α) (r : Record) :
    (act action).after r =
      ⟨action.run.after r.store, action.events (action.run.outcome r.store) ++ r.events⟩ := by
  simp only [after, act, EvalM.after, EvalM.outcome]
  cases action.run r.store <;> rfl

/-- A read leaves the store as it is and is written down with its outcome. -/
theorem act_readSlot (id : ClassId) (name : Symbol) (access : Access) (r : Record) :
    act (.readSlot id name access) r =
      let outcome := (r.store.slots id).get name access
      let r' : Record := { r with events := .read id name access outcome :: r.events }
      match outcome with
      | .ok v => .ok v r'
      | .error e => .error e r' := by
  simp only [act, Action.run, EvalM.getSlot, EvalM.ask]
  cases (r.store.slots id).get name access <;> rfl

end Recorder

/-- Computations of the recorder that do what others do without a record. -/
def Simulation.erasing : Simulation Recorder EvalM where
  under g h := g = h
  rel x y := ∀ r, Recorder.erase x r = y r.store
  rel_pure _ _ := rfl
  rel_fail _ _ := rfl
  rel_bind first rest := Recorder.erase_bind first rest
  rel_during application _ _ same := Recorder.erase_during application same
  rel_calling _ _ _ _ _ same _ := same _
  rel_act action _ := Recorder.erase_act action
  rel_write _ _ _ under := by
    subst under
    exact Recorder.erase_act _
  rel_read _ _ _ _ under rest := by
    subst under
    exact Recorder.erase_bind (Recorder.erase_act _) (rest rfl)

/-- **A record is kept of evaluation itself**: without it the recorder ends with the same value or
error, in the same store. -/
theorem Context.erase_eval (ctx : Context) (scope : Scope) (term : Value) (r : Record) :
    Recorder.erase (ctx.eval scope term) r = (ctx.eval scope term : EvalM Value) r.store :=
  Simulation.erasing.rel_eval ctx rfl scope term r

/-- The events of an evaluation, the latest first. -/
def Context.events (ctx : Context) (scope : Scope) (term : Value) (s : Store) : List Event :=
  (Recorder.after (ctx.eval scope term) { store := s }).events

end GuardedLisp
