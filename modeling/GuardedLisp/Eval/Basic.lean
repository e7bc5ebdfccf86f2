import GuardedLisp.Eval.Apply
import GuardedLisp.Eval.Template

/-!
# Evaluation

A term is evaluated with a number of levels of nesting that are left.  Entering a term takes one;
with none left, evaluation fails.  Every other recursion is on the terms themselves, so evaluation
always ends, with a value or with an error.

## Main definitions

* `evalAt`, `expandAt`: evaluation of terms and expansion of templates with so many levels left
* `Context`: the limit, the levels that have been entered, and the grants
* `Context.eval`, `Context.apply`, `Context.call`, `Context.expand`: what happens in a context
-/

namespace GuardedLisp

open Machine (act fail ofExcept during)

/-- Evaluates a term, given the evaluator one level further in.  Symbols are looked up, pairs are
applications, and all other values stand for themselves. -/
@[specialize] def Level.evalTerm {m : Type → Type} [Machine m] (inner : Level m) (grants : Grants)
    (scope : Scope) : Value → m Value
  | .symbol name => act (.lookup scope name)
  | .pair address first rest => do
    let callable ← inner.eval grants scope first
    let args ← ofExcept rest.elements
    during (.pair address first rest) (inner.apply grants scope callable args)
  | v => return v

mutual

/-- Evaluates a term with a number of levels left.  The limit is what a failure names. -/
@[specialize] def evalAt {m : Type → Type} [Machine m] (limit : Nat) :
    Nat → Grants → Scope → Value → m Value
  | 0, _, _, _ => fail (.tooDeep limit)
  | left + 1, grants, scope, term =>
    Level.evalTerm ⟨evalAt limit left, expandAt limit left⟩ grants scope term

/-- Expands a template with a number of levels left.  Only a pair takes a level. -/
@[specialize] def expandAt {m : Type → Type} [Machine m] (limit : Nat) :
    Nat → Grants → Scope → Value → m Value
  | 0, _, _, .pair .. => fail (.tooDeep limit)
  | 0, _, _, template => return template
  | left + 1, grants, scope, template =>
    Level.expandChain ⟨evalAt limit left, expandAt limit left⟩ grants scope template

end

/-- How many levels of nesting an interpreter allows unless it is told otherwise. -/
def defaultLimit : Nat := 128

/-- Where evaluation stands: how many levels it may enter, how many it has entered, and the grants
in force. -/
structure Context where
  limit : Nat := defaultLimit
  depth : Nat := 0
  grants : Grants := []
deriving DecidableEq, Repr

namespace Context

/-- The context one level further in. -/
def enter (ctx : Context) : Except Error Context :=
  if ctx.limit ≤ ctx.depth then .error (.tooDeep ctx.limit)
  else .ok { ctx with depth := ctx.depth + 1 }

/-- The context in which a method of a class runs. -/
def grant (ctx : Context) (id : ClassId) : Context := { ctx with grants := id :: ctx.grants }

/-- From where the slots of a class are accessed. -/
def access (ctx : Context) (id : ClassId) : Access := ctx.grants.access id

variable {m : Type → Type} [Machine m]

/-- The evaluator with the levels that are left. -/
def level (ctx : Context) : Level m :=
  let left := ctx.limit - ctx.depth
  ⟨evalAt ctx.limit left, expandAt ctx.limit left⟩

/-- Evaluates a term in a scope. -/
@[specialize] def eval (ctx : Context) (scope : Scope) (term : Value) : m Value :=
  ctx.level.eval ctx.grants scope term

/-- Evaluates terms from left to right. -/
@[specialize] def evalAll (ctx : Context) (scope : Scope) (terms : List Value) : m (List Value) :=
  ctx.level.evalAll ctx.grants scope terms

/-- Expands a template in a scope. -/
@[specialize] def expand (ctx : Context) (scope : Scope) (template : Value) : m Value :=
  ctx.level.expand ctx.grants scope template

/-- Calls a value with the terms of its arguments. -/
@[specialize] def apply (ctx : Context) (scope : Scope) (callable : Value) (args : List Value) :
    m Value :=
  ctx.level.apply ctx.grants scope callable args

/-- Calls a value as a method of a class. -/
@[specialize] def call (ctx : Context) (scope : Scope) (id : ClassId) (callable : Value)
    (args : List Value) : m Value := do
  let scope ← act (.enter scope)
  act (.define scope .self (.classObject id))
  (ctx.grant id).apply scope callable args

end Context

end GuardedLisp
