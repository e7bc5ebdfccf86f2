/-!
# Interners

An interner numbers texts.  A text that is new gets the next number, and a text that is known keeps
the one that it has.  What is said about symbols holds for every interner that does so.

## Main definitions

* `Interner`: what numbers texts, and what is relied on
* `Numbering`: the texts that have been numbered, each at the place of its number
-/

namespace GuardedLisp

/-- What numbers texts. -/
class Interner (ι : Type) where
  /-- An interner before the first text. -/
  empty : ι
  /-- The number of a text that is known. -/
  get? : ι → String → Option Nat
  /-- The number of a text, which is known afterwards. -/
  getOrIntern : ι → String → Nat × ι
  /-- How many texts are known. -/
  size : ι → Nat
  get?_empty (name : String) : get? empty name = none
  size_empty : size empty = 0
  /-- The number of a known text is used again, and nothing changes. -/
  getOrIntern_of_some {interner : ι} {name : String} {id : Nat} :
    get? interner name = some id → getOrIntern interner name = (id, interner)
  /-- A new text gets the next number. -/
  getOrIntern_of_none {interner : ι} {name : String} :
    get? interner name = none → (getOrIntern interner name).1 = size interner
  /-- One text more is known then. -/
  size_of_none {interner : ι} {name : String} :
    get? interner name = none → size (getOrIntern interner name).2 = size interner + 1
  /-- All other texts keep their numbers. -/
  get?_of_none {interner : ι} {name : String} (other : String) :
    get? interner name = none → get? (getOrIntern interner name).2 other =
      if other = name then some (size interner) else get? interner other

/-- Texts in the order in which they have been numbered. -/
structure Numbering where
  names : List String
deriving DecidableEq, Repr

namespace Numbering

/-- The number of a text, and the texts once it is among them. -/
def add (numbering : Numbering) (name : String) : Nat × Numbering :=
  match numbering.names.idxOf? name with
  | some id => (id, numbering)
  | none => (numbering.names.length, ⟨numbering.names ++ [name]⟩)

theorem add_of_none {numbering : Numbering} {name : String}
    (new : numbering.names.idxOf? name = none) :
    numbering.add name = (numbering.names.length, ⟨numbering.names ++ [name]⟩) := by
  rw [add, new]

theorem idxOf?_append {names : List String} {name : String} (new : names.idxOf? name = none)
    (other : String) : (names ++ [name]).idxOf? other =
      if other = name then some names.length else names.idxOf? other := by
  have last : List.findIdx? (· == other) [name] = if other = name then some 0 else none := by
    simp only [List.findIdx?_singleton, beq_iff_eq, @eq_comm _ other]
  unfold List.idxOf? at new ⊢
  rw [List.findIdx?_append, last]
  split
  · next same => rw [same, new, Option.none_or, Option.map_some, Nat.zero_add]
  · rw [Option.map_none, Option.or_none]

@[default_instance] instance : Interner Numbering where
  empty := ⟨[]⟩
  get? numbering name := numbering.names.idxOf? name
  getOrIntern := add
  size numbering := numbering.names.length
  get?_empty _ := rfl
  size_empty := rfl
  getOrIntern_of_some known := by rw [add, known]
  getOrIntern_of_none new := by rw [add_of_none new]
  size_of_none new := by rw [add_of_none new, List.length_append, List.length_singleton]
  get?_of_none other new := by rw [add_of_none new, idxOf?_append new]

end Numbering

end GuardedLisp
