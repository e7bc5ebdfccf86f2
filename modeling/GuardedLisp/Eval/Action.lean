import GuardedLisp.Params
import GuardedLisp.Store.Basic
import GuardedLisp.Value.Chain

/-!
# The steps of evaluation

Evaluation works on a store and may fail.  A failure keeps the store as it was then, with all that
happened before.  An `Action` is one step: evaluation is made of these steps and of nothing else
that looks at the store or changes it.

## Main definitions

* `EvalM`: computations that work on the store and may fail
* `Action`: the steps, and `Action.run`, what each of them does
-/

namespace GuardedLisp

/-- Computations that work on the store and may fail. -/
abbrev EvalM := EStateM Error Store

namespace EvalM

/-- Looks at the store. -/
@[inline] def ask (query : Store → Except Error α) : EvalM α := fun s =>
  match query s with
  | .ok a => .ok a s
  | .error e => .error e s

/-- Changes the store, unless the change is refused.  A change that is refused gives no store, so
nothing can have been changed before the refusal. -/
@[inline] def edit (change : Store → Except Error Store) : EvalM Unit := fun s =>
  match change s with
  | .ok s => .ok () s
  | .error e => .error e s

/-- Makes new values. -/
@[inline] def alloc (make : Alloc α) : EvalM α := fun s =>
  let (a, next) := make s.nextAddress
  .ok a { s with nextAddress := next }

/-- Prints a text.  Printing always succeeds: that a text cannot be written to where the output goes
is left out. -/
def print (text : String) : EvalM Unit := fun s => .ok () { s with output := s.output ++ text }

/-- The value of a name in a scope. -/
def lookup (scope : Scope) (name : Symbol) : EvalM Value := ask fun s => s.lookup scope name

/-- Adds a name to the nearest frame of a scope. -/
def define (scope : Scope) (name : Symbol) (value : Value) : EvalM Unit :=
  edit fun s => s.define scope name value

/-- Gives a name of a scope another value. -/
def assign (scope : Scope) (name : Symbol) (value : Value) : EvalM Unit :=
  edit fun s => s.assign scope name value

/-- A new empty frame inside a scope. -/
def enter (scope : Scope) : EvalM Scope := fun s =>
  let (inner, s) := s.newFrame scope.chain
  .ok inner s

/-- Makes a class below the given parents. -/
def newClass (parents : List ClassId) : EvalM ClassId := fun s =>
  let (id, s) := s.newClass parents
  .ok id s

/-- The value of a slot of a class. -/
def getSlot (id : ClassId) (name : Symbol) (access : Access) : EvalM Value :=
  ask fun s => (s.slots id).get name access

/-- Changes the slots of a class, unless the change is refused. -/
@[inline] def editSlots (id : ClassId) (change : SlotTable → Except Error SlotTable) :
    EvalM Unit :=
  edit fun s =>
    match change (s.slots id) with
    | .ok table => .ok (s.setSlots id table)
    | .error e => .error e

/-- Names the application that an error of a computation came out of. -/
@[inline] def during (application : Value) (x : EvalM α) : EvalM α := fun s =>
  match x s with
  | .ok a s => .ok a s
  | .error e s => .error (e.during application.text) s

end EvalM

/-- The steps that evaluation is made of, with the type of what each of them gives. -/
inductive Action : Type → Type where
  /-- Gives the value of a name in a scope. -/
  | lookup (scope : Scope) (name : Symbol) : Action Value
  /-- Adds a name to the nearest frame of a scope. -/
  | define (scope : Scope) (name : Symbol) (value : Value) : Action Unit
  /-- Gives a name of a scope another value. -/
  | assign (scope : Scope) (name : Symbol) (value : Value) : Action Unit
  /-- Makes an empty frame inside a scope. -/
  | enter (scope : Scope) : Action Scope
  /-- Makes a class below the given parents. -/
  | newClass (parents : List ClassId) : Action ClassId
  /-- Gives the value of a slot of a class. -/
  | readSlot (id : ClassId) (name : Symbol) (access : Access) : Action Value
  /-- Declares a slot of a class. -/
  | defineSlot (id : ClassId) (name : Symbol) (datatype : Option Datatype) : Action Unit
  /-- Writes a slot of a class. -/
  | writeSlot (id : ClassId) (name : Symbol) (value : Value) (access : Access) : Action Unit
  /-- Changes the permission of a slot of a class. -/
  | chmodSlot (id : ClassId) (name : Symbol) (flags : List PermissionFlag) : Action Unit
  /-- Closes a class to changes of its shape. -/
  | finalise (id : ClassId) : Action Unit
  /-- Makes a pair. -/
  | pair (first rest : Value) : Action Value
  /-- Makes a list. -/
  | list (items : List Value) : Action Value
  /-- Makes a closure in a scope. -/
  | closure (kind : ClosureKind) (params : Params) (body : Value) (scope : Scope) : Action Value
  /-- Prints a text. -/
  | print (text : String) : Action Unit

/-- What a step does. -/
@[inline] def Action.run : Action α → EvalM α
  | .lookup scope name => EvalM.lookup scope name
  | .define scope name value => EvalM.define scope name value
  | .assign scope name value => EvalM.assign scope name value
  | .enter scope => EvalM.enter scope
  | .newClass parents => EvalM.newClass parents
  | .readSlot id name access => EvalM.getSlot id name access
  | .defineSlot id name datatype => EvalM.editSlots id fun table => table.define name datatype
  | .writeSlot id name value access => EvalM.editSlots id fun table => table.set name value access
  | .chmodSlot id name flags =>
    EvalM.editSlots id fun table => (table.chmod name flags).map Prod.snd
  | .finalise id => EvalM.editSlots id fun table => .ok table.finalise
  | .pair first rest => EvalM.alloc (Alloc.pair first rest)
  | .list items => EvalM.alloc (Alloc.list items)
  | .closure kind params body scope =>
    EvalM.alloc do return .closure (← Alloc.fresh) kind params body scope
  | .print text => EvalM.print text

end GuardedLisp
