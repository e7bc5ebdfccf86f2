import GuardedLisp.Eval.Action

/-!
# What evaluation runs on

Evaluation is written for any machine that can take its steps.  `EvalM` takes them and does nothing
else.  Other machines may keep a record of what is going on, so what happens while a term is
evaluated can be spoken of without a second evaluator.

A method of a class runs with a grant for that class.  A grant opens the slots of the class that
are closed to the outside, and lasts as long as the call.  Grants add up, so what counts is which
classes have one.

## Main definitions

* `Grants`, `Call`: the grants in force, and a value with what it is called with
* `Machine`: what can take the steps of evaluation
-/

namespace GuardedLisp

/-- The classes whose methods are being called, innermost first. -/
abbrev Grants := List ClassId

/-- From where the slots of a class are accessed under given grants. -/
def Grants.access (grants : Grants) (id : ClassId) : Access :=
  if id ∈ grants then .inside else .outside

/-- A value, the terms it is called with, and the grants in force during the call. -/
structure Call where
  grants : Grants
  callable : Value
  args : List Value
deriving DecidableEq, Repr

/-- What can take the steps of evaluation. -/
class Machine (m : Type → Type) extends Monad m where
  /-- Takes a step. -/
  act {α : Type} (action : Action α) : m α
  /-- Ends with an error. -/
  fail {α : Type} (e : Error) : m α
  /-- Names the application that an error of a computation came out of. -/
  during {α : Type} (application : Value) (x : m α) : m α
  /-- Does what a call comes to. -/
  calling {α : Type} (call : Call) (x : m α) : m α

/-- The machine that takes the steps and does nothing else. -/
@[always_inline] instance : Machine EvalM where
  act := Action.run
  fail e := throw e
  during := EvalM.during
  calling _ x := x

namespace Machine

variable {m : Type → Type} [Machine m]

/-- Fails with the error of a check, or goes on with its result. -/
@[inline] def ofExcept : Except Error α → m α
  | .ok a => pure a
  | .error e => fail e

/-- Binds parameters in a frame.  A parameter that takes all further arguments is bound to a new
list of them. -/
@[specialize] def bindParams (params : Params) (args : List Value) (scope : Scope) : m Unit := do
  ofExcept (params.arity.check args.length)
  (params.fixed.zip args).forM fun (name, value) => act (.define scope name value)
  match params.rest with
  | some name => do
    let surplus ← act (.list (args.drop params.fixed.length))
    act (.define scope name surplus)
  | none => pure ()

end Machine

end GuardedLisp
