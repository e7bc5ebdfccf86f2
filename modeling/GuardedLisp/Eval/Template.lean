import GuardedLisp.Eval.Level

/-!
# Templates

A template is copied, except that a part headed by `unquote` is replaced by the value of its
operand and a part headed by `quasiquote` is kept as it is.  Every pair of a chain is looked at as
if it began a part, so `unquote` is found in the tail of a chain as well.

A chain is walked at one level of nesting; only its elements take one more.
-/

namespace GuardedLisp

/-- The symbols that have a meaning at the head of a part. -/
inductive TemplateMark where
  | unquote
  | quasiquote
  | splicing
deriving DecidableEq, Repr

/-- The mark at the head of a part, if there is one. -/
def TemplateMark.ofHead? : Value → Option TemplateMark
  | .symbol name =>
    if name = .unquote then some .unquote
    else if name = .quasiquote then some .quasiquote
    else if name = .unquoteSplicing then some .splicing
    else none
  | _ => none

namespace Level

open Machine (act fail ofExcept)

variable {m : Type → Type} [Machine m] (inner : Level m) (grants : Grants) (scope : Scope)

/-- The value of a part headed by `unquote`, given the part and what follows its head. -/
@[specialize] def unquote (part operands : Value) : m Value := do
  match ← ofExcept operands.elements with
  | [term] => inner.eval grants scope term
  | terms => fail (.arity (.exactly 1) terms.length (some part.text))

/-- Expands a template, or what is left of a chain in one. -/
@[specialize] def expandChain : Value → m Value
  | .pair address first rest =>
    match TemplateMark.ofHead? first with
    | some .unquote => inner.unquote grants scope (.pair address first rest) rest
    | some .quasiquote => return .pair address first rest
    | some .splicing => fail (.form (.splicing (Value.pair address first rest).text))
    | none => do
      let first ← inner.expand grants scope first
      let rest ← expandChain rest
      act (.pair first rest)
  | v => return v

end Level

end GuardedLisp
