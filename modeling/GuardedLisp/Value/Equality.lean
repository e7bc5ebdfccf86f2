import GuardedLisp.Value.Basic

/-!
# Sameness and likeness

Two values are the same if nothing can tell them apart: pairs, strings and closures are compared
by address.  Two values are alike if pairs and strings have like contents and all else is the same.
Pairs at one address are alike without a look at what they hold.
-/

namespace GuardedLisp

namespace Value

/-- Whether two values are one and the same. -/
def same : Value → Value → Bool
  | nil, nil => true
  | symbol a, symbol b => a = b
  | integer a, integer b => a = b
  | bool a, bool b => a = b
  | string a _, string b _ => a = b
  | pair a _ _, pair b _ _ => a = b
  | closure a _ _ _ _, closure b _ _ _ _ => a = b
  | builtin a, builtin b => a = b
  | classObject a, classObject b => a = b
  | _, _ => false

/-- Whether two values are built alike. -/
def alike : Value → Value → Bool
  | pair a first₁ rest₁, pair b first₂ rest₂ =>
    a = b || (first₁.alike first₂ && rest₁.alike rest₂)
  | string _ a, string _ b => a = b
  | v, w => v.same w

end Value

end GuardedLisp
