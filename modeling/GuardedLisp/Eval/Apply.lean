import GuardedLisp.Eval.Form
import GuardedLisp.Eval.Primitive

/-!
# Application

What a value does with the terms of its arguments.  Builtin operations and closures decide
themselves which terms are evaluated.  A class takes a selector, which names one of its slots.
What the slot holds is called with the other arguments, in a frame where `self` is the class and
under a grant for the class; a class in a slot is called in the same way, so a chain of selectors
leads from class to class.
-/

namespace GuardedLisp

/-- Whether what a slot holds is called: operations and closures always, a class if there are
arguments for it. -/
def Value.isCalledWith (v : Value) (args : List Value) : Bool :=
  match v with
  | .closure .. | .builtin _ => true
  | .classObject _ => !args.isEmpty
  | _ => false

namespace Level

open Machine (act fail ofExcept bindParams calling)

variable {m : Type → Type} [Machine m] (inner : Level m)

/-- Calls a builtin operation. -/
@[specialize] def applyBuiltin (grants : Grants) (scope : Scope) (op : Builtin)
    (args : List Value) : m Value :=
  match op with
  | .form form => inner.applyForm grants scope form args
  | .primitive primitive => do
    let values ← inner.evalAll grants scope args
    ofExcept (op.arity.check values.length)
    primitive.run values

/-- Calls a function: the arguments are evaluated where it is called, and the body in a new frame
inside the scope where it was made. -/
@[specialize] def applyFunction (grants : Grants) (scope : Scope) (params : Params) (body : Value)
    (home : Scope) (args : List Value) : m Value := do
  let values ← inner.evalAll grants scope args
  let frame ← act (.enter home)
  bindParams params values frame
  inner.eval grants frame body

/-- Calls a transformer: its body is evaluated with the terms of the arguments, and the result is
evaluated where it is called. -/
@[specialize] def applyTransformer (grants : Grants) (scope : Scope) (params : Params)
    (body : Value) (home : Scope) (args : List Value) : m Value := do
  let frame ← act (.enter home)
  bindParams params args frame
  let expansion ← inner.eval grants frame body
  -- The expansion sees the names of the caller, not those of the transformer.
  inner.eval grants scope expansion

/-- The slot that a selector names: a symbol names itself, any other term evaluates to a symbol. -/
@[specialize] def selectSlot (grants : Grants) (scope : Scope) (selector : Value) : m Symbol :=
  match selector with
  | .symbol name => return name
  | _ => do
    match ← inner.eval grants scope selector with
    | .symbol name => return name
    | v => fail (.type (.selector v.kind) none)

/-- Calls a value with the terms of its arguments. -/
@[specialize] def apply (grants : Grants) (scope : Scope) (callable : Value) (args : List Value) :
    m Value :=
  calling ⟨grants, callable, args⟩ <| match args, callable with
  | args, .builtin op => inner.applyBuiltin grants scope op args
  | args, .closure _ .function params body home =>
    inner.applyFunction grants scope params body home args
  | args, .closure _ .transformer params body home =>
    inner.applyTransformer grants scope params body home args
  | [], .classObject _ => fail (.arity (.atLeast 1) 0 none)
  | selector :: args, .classObject id => do
    let name ← inner.selectSlot grants scope selector
    -- The slot is read before there is a grant for the class.
    let value ← act (.readSlot id name (grants.access id))
    if value.isCalledWith args then do
      -- The arguments that are left are evaluated in the frame with `self`.
      let scope ← act (.enter scope)
      act (.define scope .self (.classObject id))
      apply (id :: grants) scope value args
    else if args.isEmpty then return value
    else fail (.notCallable (.slot name.name id value.text value.kind))
  | _, v => fail (.notCallable (.value v.text v.kind))

end Level

end GuardedLisp
