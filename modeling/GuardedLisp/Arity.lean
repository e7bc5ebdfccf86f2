/-!
# Arities

How many arguments an operation takes.
-/

namespace GuardedLisp

/-- The numbers of arguments that an operation takes. -/
inductive Arity where
  | exactly (count : Nat)
  | atLeast (count : Nat)
  /-- Both bounds are allowed. -/
  | between (least most : Nat)
  | any
deriving DecidableEq, Repr

namespace Arity

/-- Whether an operation takes a number of arguments. -/
def admits : Arity → Nat → Bool
  | exactly count, got => got = count
  | atLeast count, got => count ≤ got
  | between least most, got => least ≤ got && got ≤ most
  | any, _ => true

/-- How messages put an arity. -/
def text : Arity → String
  | exactly count => toString count
  | atLeast count => "at least " ++ toString count
  | between least most => toString least ++ " to " ++ toString most
  | any => "any number of"

end Arity

end GuardedLisp
