import GuardedLisp.Datum
import GuardedLisp.Value.Text

/-!
# Chains of pairs

A list is a chain of pairs that ends in `nil`.  Making a pair takes a fresh address, so what makes
pairs runs in `Alloc`, which counts addresses; taking a chain apart needs none.

## Main definitions

* `Value.parts`: the elements of a chain followed by its tail
* `Value.elements`: the elements of a list, or an error for any other value
* `Alloc.chain`, `Alloc.list`: a chain with a given tail, and a list
* `Alloc.ofParts`: a chain whose tail is the last of its parts
* `Alloc.ofDatum`: the value of a datum that has been read
-/

namespace GuardedLisp

namespace Value

/-- The elements of a chain, followed by what ends it. -/
def parts : Value → List Value
  | pair _ first rest => first :: rest.parts
  | v => [v]

/-- The elements of a list, if the value is one. -/
def elements? : Value → Option (List Value)
  | nil => some []
  | pair _ first rest => rest.elements?.map (first :: ·)
  | _ => none

@[simp] theorem elements?_nil : nil.elements? = some [] := rfl

@[simp] theorem elements?_pair (address : Address) (first rest : Value) :
    (pair address first rest).elements? = rest.elements?.map (first :: ·) := rfl

@[simp] theorem parts_pair (address : Address) (first rest : Value) :
    (pair address first rest).parts = first :: rest.parts := rfl

/-- The elements of a value that has to be a list. -/
def elements (v : Value) : Except Error (List Value) :=
  match v.elements? with
  | some items => .ok items
  | none => .error (.form (.improperList v.text))

end Value

/-- Computations that take fresh addresses; the state is the next one. -/
abbrev Alloc := StateM Address

namespace Alloc

/-- A fresh address. -/
def fresh : Alloc Address := fun next => (next, next + 1)

/-- A new pair. -/
def pair (first rest : Value) : Alloc Value := do
  return .pair (← fresh) first rest

@[simp] theorem run_fresh (next : Address) : fresh.run next = (next, next + 1) := rfl

@[simp] theorem run_pair (first rest : Value) (next : Address) :
    (pair first rest).run next = (.pair next first rest, next + 1) := rfl

/-- A new chain of pairs in front of a tail. -/
def chain (items : List Value) (tail : Value) : Alloc Value := items.foldrM pair tail

@[simp] theorem chain_nil (tail : Value) : chain [] tail = pure tail := rfl

@[simp] theorem chain_cons (first : Value) (items : List Value) (tail : Value) :
    chain (first :: items) tail = chain items tail >>= pair first := by
  simp [chain]

/-- A new list. -/
def list (items : List Value) : Alloc Value := chain items .nil

/-- A new chain that ends in the last of its parts.  A single part is returned as it is. -/
def ofParts : List Value → Alloc Value
  | [] => pure .nil
  | [v] => pure v
  | v :: vs => do pair v (← ofParts vs)

/-- The value of a datum, all of whose strings and pairs are new. -/
def ofDatum : Datum → Alloc Value
  | .nil => pure .nil
  | .integer n => pure (.integer n)
  | .string text => return .string (← fresh) text
  | .symbol name => pure (.symbol name)
  | .pair first rest => do
    let first ← ofDatum first
    let rest ← ofDatum rest
    pair first rest

end Alloc

end GuardedLisp
