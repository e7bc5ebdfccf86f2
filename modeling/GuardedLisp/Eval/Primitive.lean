import GuardedLisp.Eval.Machine
import GuardedLisp.Value.Equality

/-!
# Primitives

What the builtin operations on values do.  Arithmetic is exact or fails: a result that has no
64-bit form is an error and never wraps.
-/

namespace GuardedLisp

/-- The result of an operation on integers without bounds. -/
def Arithmetic.compute : Arithmetic → Int → Int → Int
  | add, a, b => a + b
  | multiply, a, b => a * b
  | subtract, a, b => a - b

/-- The result of an operation on words, if it has a 64-bit form. -/
def Arithmetic.run (operation : Arithmetic) (a b : Int64) : Except Error Int64 :=
  match word? (operation.compute a.toInt b.toInt) with
  | some n => .ok n
  | none => .error (.overflow operation none)

/-- Whether a comparison holds. -/
def Comparison.holds : Comparison → Int64 → Int64 → Bool
  | less, a, b => a < b
  | greater, a, b => b < a
  | equal, a, b => a = b
  | atMost, a, b => a ≤ b
  | atLeast, a, b => b ≤ a

/-- A part of a value that has to be a pair. -/
def PairPart.of (part : PairPart) : Value → Except Error Value
  | .pair _ a d => .ok (match part with | .first => a | .rest => d)
  | v => .error (.type (.pairRequired part v.kind) none)

open Machine (act fail ofExcept)

/-- Calls a primitive.  Arguments that have to be integers are checked from left to right.  What is
displayed can always be printed, so there is no error for output that fails. -/
@[specialize] def Primitive.run {m : Type → Type} [Machine m] (op : Primitive) (args : List Value) :
    m Value :=
  match op, args with
  | .display, [v] => do act (.print v.displayed); return .nil
  | .newline, [] => do act (.print "\n"); return .nil
  | .cons, [v, w] => act (.pair v w)
  | .part which, [v] => ofExcept (which.of v)
  | .same, [v, w] => return .bool (v.same w)
  | .alike, [v, w] => return .bool (v.alike w)
  | .arithmetic operation, [v, w] => do
    let a ← ofExcept v.toInteger
    let b ← ofExcept w.toInteger
    return .integer (← ofExcept (operation.run a b))
  | .comparison operation, [v, w] => do
    let a ← ofExcept v.toInteger
    let b ← ofExcept w.toInteger
    return .bool (operation.holds a b)
  | op, args => fail (.arity (.exactly op.argumentCount) args.length none)

end GuardedLisp
