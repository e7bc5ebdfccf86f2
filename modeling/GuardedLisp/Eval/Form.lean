import GuardedLisp.Eval.Level

/-!
# Special forms

What the builtin operations do that take the terms of their arguments.  Each form checks its own
shape, and does so before it evaluates anything.
-/

namespace GuardedLisp

/-- The symbol that a term of a class form has to be, which is not evaluated. -/
def LiteralRole.read (role : LiteralRole) (term : Value) : Except Error Symbol :=
  match term.symbol? with
  | some name => .ok name
  | none => .error (.form (.literal role term.text))

/-- The datatype that a text has to name. -/
def Datatype.ofName (text : String) : Except Error Datatype :=
  match Datatype.ofName? text with
  | some datatype => .ok datatype
  | none => .error (.form (.unknownDatatype text))

/-- The change of a permission that a text has to name. -/
def PermissionFlag.ofText (text : String) : Except Error PermissionFlag :=
  match PermissionFlag.ofText? text with
  | some flag => .ok flag
  | none => .error (.form (.unknownFlag text))

/-- The datatype that a term of a class form has to name. -/
def Datatype.ofTerm (term : Value) : Except Error Datatype := do
  Datatype.ofName (← LiteralRole.datatype.read term).name

/-- The change of a permission that a term of a class form has to name. -/
def PermissionFlag.ofTerm (term : Value) : Except Error PermissionFlag := do
  PermissionFlag.ofText (← LiteralRole.permissionFlag.read term).name

open Machine (act fail ofExcept)

variable {m : Type → Type} [Machine m]

/-- Makes a closure whose body evaluates the given terms in order. -/
@[specialize] def makeClosure (scope : Scope) (kind : ClosureKind) (args : List Value) : m Value :=
  match args with
  | params :: first :: body => do
    let params ← ofExcept (Params.ofTerm params)
    let body ← act (.list (.symbol .begin :: first :: body))
    act (.closure kind params body scope)
  | _ => fail (.arity (.atLeast 2) args.length none)

namespace Level

variable (inner : Level m) (grants : Grants) (scope : Scope)

/-- Binds a name that is new in the nearest frame.  A signature `(name . params)` with a body binds
the name to the function with these parameters and this body. -/
@[specialize] def define (args : List Value) : m Value :=
  match args with
  | [.symbol name, term] => do
    let value ← inner.eval grants scope term
    act (.define scope name value)
    return .nil
  | .pair _ (.symbol name) params :: first :: body => do
    -- The signature stands for a function, and the body may have several terms.
    let term ← act (.list (.symbol .lambda :: params :: first :: body))
    let value ← inner.eval grants scope term
    act (.define scope name value)
    return .nil
  | .pair _ head _ :: _ :: _ => fail (.form (.definedName head.text))
  | _ :: _ :: _ => fail (.form .definition)
  | _ => fail (.arity (.atLeast 2) args.length none)

/-- Gives a name another value. -/
@[specialize] def assign (args : List Value) : m Value :=
  match args with
  | [.symbol name, term] => do
    let value ← inner.eval grants scope term
    act (.assign scope name value)
    return .nil
  | [_, _] => fail (.form .assignedName)
  | _ => fail (.arity (.exactly 2) args.length none)

/-- Evaluates one of two terms.  Only the value `true` selects the first. -/
@[specialize] def branch (args : List Value) : m Value :=
  match args with
  | [condition, consequent] => do
    -- Every value but `true` counts as false, `nil` and numbers too.
    match ← inner.eval grants scope condition with
    | .bool true => inner.eval grants scope consequent
    | _ => return .nil
  | [condition, consequent, alternative] => do
    match ← inner.eval grants scope condition with
    | .bool true => inner.eval grants scope consequent
    | _ => inner.eval grants scope alternative
  | _ => fail (.arity (.between 2 3) args.length none)

/-- Makes a class below the classes that the terms stand for. -/
@[specialize] def newClass (args : List Value) : m Value := do
  let parents ← args.mapM (inner.evalClass grants scope)
  return .classObject (← act (.newClass parents))

/-- Declares a slot of a class. -/
@[specialize] def classDefine (args : List Value) : m Value :=
  match args with
  | [target, name] => do
    let id ← inner.evalClass grants scope target
    let name ← ofExcept (LiteralRole.slotName.read name)
    act (.defineSlot id name none)
    return .nil
  | [target, name, datatype] => do
    let id ← inner.evalClass grants scope target
    let name ← ofExcept (LiteralRole.slotName.read name)
    let datatype ← ofExcept (Datatype.ofTerm datatype)
    act (.defineSlot id name (some datatype))
    return .nil
  | _ => fail (.arity (.between 2 3) args.length none)

/-- Writes a slot of a class, with the access that the grants give. -/
@[specialize] def classSet (args : List Value) : m Value :=
  match args with
  | [target, name, term] => do
    -- The class and the name are checked before the term is evaluated.
    let id ← inner.evalClass grants scope target
    let name ← ofExcept (LiteralRole.slotName.read name)
    let value ← inner.eval grants scope term
    act (.writeSlot id name value (grants.access id))
    return .nil
  | _ => fail (.arity (.exactly 3) args.length none)

/-- Changes the permission of a slot of a class. -/
@[specialize] def classChmod (args : List Value) : m Value :=
  match args with
  | target :: name :: flags => do
    let id ← inner.evalClass grants scope target
    let name ← ofExcept (LiteralRole.slotName.read name)
    let flags ← ofExcept (flags.mapM PermissionFlag.ofTerm)
    act (.chmodSlot id name flags)
    return .nil
  | _ => fail (.arity (.atLeast 2) args.length none)

/-- Closes a class to changes of its shape. -/
@[specialize] def classFinalize (args : List Value) : m Value :=
  match args with
  | [target] => do
    let id ← inner.evalClass grants scope target
    act (.finalise id)
    return .nil
  | _ => fail (.arity (.exactly 1) args.length none)

/-- Calls a special form. -/
@[specialize] def applyForm (form : SpecialForm) (args : List Value) : m Value :=
  match form with
  | .quote =>
    match args with
    | [term] => return term
    | _ => fail (.arity (.exactly 1) args.length none)
  | .assign => inner.assign grants scope args
  | .define => inner.define grants scope args
  | .branch => inner.branch grants scope args
  | .lambda => makeClosure scope .function args
  | .begin =>
    match args with
    | term :: terms => inner.evalLast grants scope term terms
    | [] => fail (.arity (.atLeast 1) 0 none)
  | .newClass => inner.newClass grants scope args
  | .classDefine => inner.classDefine grants scope args
  | .classSet => inner.classSet grants scope args
  | .classChmod => inner.classChmod grants scope args
  | .classFinalize => inner.classFinalize grants scope args
  | .transformer => makeClosure scope .transformer args
  | .quasiquote =>
    match args with
    | [template] => inner.expand grants scope template
    | _ => fail (.arity (.exactly 1) args.length none)
  | .unquote => fail (.form .unquoteOutside)

end Level

end GuardedLisp
