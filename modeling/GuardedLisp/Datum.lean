import GuardedLisp.Symbol

/-!
# Data: what a text denotes

A `Datum` is the tree that the reader makes of a text, before anything has an identity.  The empty
list, integers, strings and symbols are its leaves and pairs its only branching.

An atom is a run of atom characters.  It denotes an integer if it is an optional sign followed by
digits only, and otherwise the symbol with that text.
-/

namespace GuardedLisp

/-- What a text denotes. -/
inductive Datum where
  | nil
  | integer (value : Int64)
  | string (text : String)
  | symbol (name : Symbol)
  | pair (first rest : Datum)
deriving DecidableEq, Repr, Inhabited

namespace Datum

/-- A chain of pairs with the given elements and a final tail. -/
def chain (items : List Datum) (tail : Datum) : Datum :=
  items.foldr pair tail

/-- The two-element list that a quotation mark stands for. -/
def marked (keyword : Symbol) (datum : Datum) : Datum :=
  chain [symbol keyword, datum] nil

end Datum

namespace Atom

/-- The characters besides ASCII letters and digits that may occur in an atom. -/
def specials : List Char :=
  ['-', '_', '<', '>', '%', '=', '!', '^', '&', '?', '*', '+', '/']

/-- Whether a character may occur in an atom. -/
def isAtomChar (c : Char) : Bool := c.isAlphanum || specials.contains c

/-- The number that a non-empty run of decimal digits denotes. -/
def decimal? (digits : List Char) : Option Nat :=
  if digits ≠ [] ∧ digits.all Char.isDigit then
    some (digits.foldl (fun n c => 10 * n + (c.toNat - 48)) 0)
  else
    none

/-- The integer that an atom denotes, if it is written as one: an optional sign, then digits. -/
def integer? : List Char → Option Int
  | '-' :: digits => (decimal? digits).map fun n => -(n : Int)
  | '+' :: digits => (decimal? digits).map fun n => (n : Int)
  | digits => (decimal? digits).map fun n => (n : Int)

end Atom

/-- The 64-bit word with a given value, if there is one. -/
def word? (n : Int) : Option Int64 :=
  if Int64.minValue.toInt ≤ n ∧ n ≤ Int64.maxValue.toInt then some (Int64.ofInt n) else none

end GuardedLisp
