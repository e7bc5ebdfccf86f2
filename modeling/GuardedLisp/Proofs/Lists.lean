import GuardedLisp.Proofs.Chain
import GuardedLisp.Proofs.Memory
import Mathlib.Data.List.Forall2

/-!
# Chains and lists of their parts

A chain of pairs is taken apart into its elements and what ends it, and a chain is built of elements
and what is to end it.  A value can always be built again of its parts.  But not all values are the
parts of a chain: something has to end it, and if what is to end it is a pair then the chain goes on
with that.

A list is a chain that ends in `nil`, and only that has elements.  It is told by them: a value has
given elements just if it is like the list that is built of those.

## Main definitions

* `Value.AllAlike`: values that are alike one by one
* `Value.LastIsNoPair`: values that are the parts of a chain
* `Memory.made`: what a computation makes in a memory

## Main results

* `Value.like_iff_of_isChain`: what is like a list is a list with like elements
* `Alloc.like_ofParts`: a value is built again of its parts
* `Memory.exists_elements_iff_alike`: a list is told by its elements
* `Memory.chain_conversions`: which conversions undo one another
-/

namespace GuardedLisp

namespace Value

/-- As many values on either side, alike one by one. -/
def AllAlike (vs ws : List Value) : Prop := List.Forall₂ (fun v w => v.alike w = true) vs ws

/-- There is a last one of some values, and it is no pair. -/
def LastIsNoPair (items : List Value) : Prop :=
  ∃ last, items.getLast? = some last ∧ last.kind ≠ .pair

variable {v w last : Value} {items others : List Value}

/-! ## Chains that are built alike -/

/-- Chains are built alike if they have like elements and the same end. -/
theorem IsChain.like (chain : v.IsChain items last) (other : w.IsChain others last)
    (elements : List.Forall₂ Like items others) : v.Like w := by
  induction chain generalizing w others with
  | last v =>
    cases elements
    cases other
    exact .refl v
  | pair a _ ih =>
    cases elements with
    | cons first elements =>
      cases other with
      | pair b other => exact .pair a b first (ih other elements)

/-- What is built like a list is a list with like elements. -/
theorem like_iff_of_isChain (list : w.IsChain others .nil) :
    v.Like w ↔ ∃ items, v.IsChain items .nil ∧ List.Forall₂ Like items others := by
  constructor
  · intro like
    generalize ends : Value.nil = last at list
    induction list generalizing v with
    | last w =>
      subst ends
      cases like
      exact ⟨[], .last .nil, .nil⟩
    | pair b _ ih =>
      cases like with
      | @pair a _ first _ _ _ firsts rests =>
        obtain ⟨items, chain, elements⟩ := ih rests ends
        exact ⟨first :: items, .pair a chain, .cons firsts elements⟩
  · rintro ⟨items, chain, elements⟩
    exact chain.like list elements

end Value

/-! ## Building again what has been taken apart -/

/-- A value is built again of its parts. -/
theorem Alloc.like_ofParts (v : Value) (next : Address) :
    ((ofParts v.parts).run next).1.Like v := by
  obtain ⟨items, last, chain, single⟩ := v.exists_isChain
  rw [chain.parts_eq, Value.parts_of_kind single, ofParts_concat]
  apply (isChain_chain items last next).like chain
  exact List.forall₂_same.mpr fun item _ => .refl item

namespace Memory

open Value (AllAlike LastIsNoPair)

/-- What a computation makes in a memory. -/
def made (M : Memory) (make : Alloc α) : α := (make.run M.next).1

variable {M : Memory} {v : Value} {items found : List Value}

theorem parts_made_ofParts (M : Memory) (ends : LastIsNoPair items) :
    (M.made (Alloc.ofParts items)).parts = items := by
  obtain ⟨last, isLast, single⟩ := ends
  obtain ⟨front, rfl⟩ := List.getLast?_eq_some_iff.mp isLast
  rw [Alloc.ofParts_concat, made, (Alloc.isChain_chain front last M.next).parts_eq,
    Value.parts_of_kind single]

/-- If the last of the parts is a pair, or if there are none, then what is built of them has more
parts than that. -/
theorem lastIsNoPair_of_length
    (same : (M.made (Alloc.ofParts items)).parts.length = items.length) : LastIsNoPair items := by
  rcases List.eq_nil_or_concat' items with rfl | ⟨front, last, rfl⟩
  · cases same
  · refine ⟨last, List.getLast?_concat, Value.kind_ne_pair_of_length ?_⟩
    have chain := Alloc.isChain_chain front last M.next
    rw [Alloc.ofParts_concat, made, chain.parts_eq, List.length_append, List.length_append] at same
    exact Nat.add_left_cancel same

/-- Between the values of a memory there is no short cut to likeness. -/
theorem forall₂_like_of_allAlike (hasFound : ∀ v ∈ found, M.Has v) (has : ∀ v ∈ items, M.Has v)
    (alike : AllAlike found items) : List.Forall₂ Value.Like found items := by
  induction alike with
  | nil => exact .nil
  | cons first _ ih =>
    rw [List.forall_mem_cons] at hasFound has
    have like := Value.like_of_alike hasFound.1.lies has.1.lies first
    exact .cons like (ih hasFound.2 has.2)

/-- A list is told by its elements. -/
theorem exists_elements_iff_alike (has : M.Has v) (hasAll : ∀ item ∈ items, M.Has item) :
    (∃ found, v.elements = .ok found ∧ AllAlike found items) ↔
      v.alike (M.made (Alloc.list items)) = true := by
  -- The new list lies in a later memory, and so do the values of this one.
  obtain ⟨M', later, -, hasList⟩ := Alloc.makes_list hasAll
  have lies : (M.made (Alloc.list items)).LiesIn M'.heap := hasList.lies
  have built : (M.made (Alloc.list items)).IsChain items .nil :=
    Alloc.isChain_chain items .nil M.next
  rw [Value.alike_iff_like (has.later later).lies lies, Value.like_iff_of_isChain built]
  constructor
  · rintro ⟨found, proper, alike⟩
    have hasFound := discipline.covers_elements has proper
    have like := forall₂_like_of_allAlike hasFound hasAll alike
    exact ⟨found, Value.elements_eq_ok_iff.mp proper, like⟩
  · rintro ⟨found, chain, like⟩
    exact ⟨found, Value.elements_eq_ok_iff.mpr chain, like.imp fun _ _ => Value.alike_of_like⟩

/-- **Which conversions undo one another.**  A value can be built again of its parts.  What is built
of some values has just those as its parts, be it the same ones or others that are like them, if and
only if there is a last one that is no pair.  Only a chain that ends in `nil` has elements, and they
are those of the chain.  Of the values in a memory it has elements like given ones just if it is
like the list that is built of those.  And what is built in front of a value has the parts of that
behind the new ones. -/
theorem chain_conversions (M : Memory) :
    (∀ v : Value, (M.made (Alloc.ofParts v.parts)).Like v ∧
      (M.made (Alloc.ofParts v.parts)).alike v = true) ∧
    (∀ items : List Value,
      ((M.made (Alloc.ofParts items)).parts = items ↔ LastIsNoPair items) ∧
      (AllAlike (M.made (Alloc.ofParts items)).parts items ↔ LastIsNoPair items)) ∧
    (∀ (v : Value) (items : List Value), v.elements = .ok items ↔ v.IsChain items .nil) ∧
    (∀ v : Value, (¬ ∃ items, v.IsChain items .nil) →
      v.elements = .error (.form (.improperList v.text))) ∧
    (∀ (v : Value) (items : List Value), M.Has v → (∀ item ∈ items, M.Has item) →
      ((∃ found, v.elements = .ok found ∧ AllAlike found items) ↔
        v.alike (M.made (Alloc.list items)) = true)) ∧
    ∀ items v, (M.made (Alloc.chain items v)).parts = items ++ v.parts := by
  refine ⟨fun v => ?_, fun items => ⟨⟨?_, ?_⟩, ⟨?_, ?_⟩⟩, ?_, ?_, ?_, fun items v => ?_⟩
  · have like := Alloc.like_ofParts v M.next
    exact ⟨like, Value.alike_of_like like⟩
  · intro same
    exact lastIsNoPair_of_length (congrArg List.length same)
  · exact parts_made_ofParts M
  · intro alike
    exact lastIsNoPair_of_length alike.length_eq
  · intro ends
    rw [parts_made_ofParts M ends]
    exact List.forall₂_same.mpr fun v _ => Value.alike_of_like (.refl v)
  · exact fun v items => Value.elements_eq_ok_iff
  · exact fun v => Value.elements_of_not_isChain
  · exact fun v items => exists_elements_iff_alike
  · exact (Alloc.isChain_chain items v M.next).parts_eq

/-- A memory with a list of one string, and then another string with the same text. -/
def twoStrings : Memory :=
  (((⟨fun _ => .nil, 0⟩ : Memory).put (.string 0 "a")).put (.pair 1 (.string 0 "a") .nil)).put
    (.string 2 "a")

/-- The list is like a new list of the other string, though the strings are not the same. -/
theorem chain_conversions_twoStrings :
    twoStrings.Has (.pair 1 (.string 0 "a") .nil) ∧
    (∀ item ∈ [Value.string 2 "a"], twoStrings.Has item) ∧
    (Value.string 0 "a").same (.string 2 "a") = false ∧
    (Value.pair 1 (.string 0 "a") .nil).alike
      (twoStrings.made (Alloc.list [.string 2 "a"])) = true := by
  have empty (M : Memory) : M.Has .nil := ⟨trivial, trivial⟩
  have list : twoStrings.Has (.pair 1 (.string 0 "a") .nil) :=
    ((has_string ⟨fun _ => .nil, 0⟩ "a").pair (empty _)).later (later_put _ _)
  have strings : ∀ item ∈ [Value.string 2 "a"], twoStrings.Has item :=
    List.forall_mem_singleton.mpr (has_string _ "a")
  obtain ⟨-, -, -, -, told, -⟩ := chain_conversions twoStrings
  refine ⟨list, strings, rfl, (told _ _ list strings).mp ⟨[.string 0 "a"], rfl, ?_⟩⟩
  exact .cons rfl .nil

end Memory

end GuardedLisp
