import GuardedLisp.Eval.Machine

/-!
# What a term is evaluated with

Evaluation nests.  Each nesting of terms takes one level of a limited number, so a form is given
the evaluator one level further in, and hands terms to it.
-/

namespace GuardedLisp

/-- The evaluator of terms and the one of templates, one level further in. -/
structure Level (m : Type → Type) where
  eval : Grants → Scope → Value → m Value
  expand : Grants → Scope → Value → m Value

namespace Level

open Machine (fail)

variable {m : Type → Type} [Machine m] (inner : Level m) (grants : Grants) (scope : Scope)

/-- The values of terms, from left to right. -/
@[specialize] def evalAll (terms : List Value) : m (List Value) :=
  terms.mapM (inner.eval grants scope)

/-- The values of terms, of which only the last is kept. -/
@[specialize] def evalLast : Value → List Value → m Value
  | term, [] => inner.eval grants scope term
  | term, next :: terms => do
    let _ ← inner.eval grants scope term
    evalLast next terms

/-- The class that a term has to stand for. -/
@[specialize] def evalClass (term : Value) : m ClassId := do
  match ← inner.eval grants scope term with
  | .classObject id => return id
  | v => fail (.type (.classRequired v.text v.kind) none)

end Level

end GuardedLisp
