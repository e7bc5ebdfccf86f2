import GuardedLisp.Value.Chain

/-!
# Chains

Every value is a chain of pairs in front of an end, and in one way only if the end is no pair.  The
addresses of the pairs do not matter to what is in the chain.  Taking a value apart and building one
of parts are said with chains here.

## Main definitions

* `Value.IsChain`: a value is a chain of pairs with given elements and a given end

## Main results

* `Value.IsChain.parts_eq`, `Value.exists_isChain`: the parts of a value
* `Value.elements_eq_ok_iff`: only a chain that ends in `nil` has elements
* `Alloc.isChain_chain`, `Alloc.ofParts_concat`: what is built is a chain
-/

namespace GuardedLisp

namespace Value

/-- A value is a chain of pairs, wherever these are, with given elements and a given end. -/
inductive IsChain : Value → List Value → Value → Prop
  | last (v : Value) : IsChain v [] v
  | pair (a : Address) {first rest last : Value} {items : List Value} :
      IsChain rest items last → IsChain (pair a first rest) (first :: items) last

variable {v last : Value} {items : List Value}

/-! ## Taking chains apart -/

theorem kind_eq_pair_iff : v.kind = .pair ↔ ∃ a first rest, v = pair a first rest := by
  constructor
  · intro isPair
    cases v with
    | pair a first rest => exact ⟨a, first, rest, rfl⟩
    | closure _ callKind => cases callKind <;> cases isPair
    | _ => cases isPair
  · rintro ⟨a, first, rest, rfl⟩
    rfl

theorem parts_ne_nil (v : Value) : v.parts ≠ [] := by
  cases v <;> exact List.cons_ne_nil _ _

theorem parts_of_kind (single : v.kind ≠ .pair) : v.parts = [v] := by
  cases v with
  | pair => exact absurd rfl single
  | _ => rfl

/-- A pair has more parts than one. -/
theorem kind_ne_pair_of_length (one : v.parts.length = 1) : v.kind ≠ .pair := by
  intro isPair
  obtain ⟨a, first, rest, rfl⟩ := kind_eq_pair_iff.mp isPair
  rw [parts_pair, List.length_cons] at one
  exact rest.parts_ne_nil (List.eq_nil_of_length_eq_zero (by omega))

theorem IsChain.parts_eq (chain : v.IsChain items last) : v.parts = items ++ last.parts := by
  induction chain with
  | last v => rfl
  | pair a _ ih => rw [parts_pair, ih, List.cons_append]

/-- Every value is a chain up to the first end that is no pair. -/
theorem exists_isChain (v : Value) : ∃ items last, v.IsChain items last ∧ last.kind ≠ .pair := by
  induction v with
  | pair a first rest _ ih =>
    obtain ⟨items, last, chain, single⟩ := ih
    exact ⟨first :: items, last, .pair a chain, single⟩
  | _ =>
    refine ⟨[], _, .last _, ?_⟩
    rw [Ne, kind_eq_pair_iff]
    rintro ⟨_, _, _, same⟩
    cases same

theorem elements?_eq_some_iff : v.elements? = some items ↔ v.IsChain items .nil := by
  constructor
  · intro proper
    induction v generalizing items with
    | nil =>
      obtain rfl := Option.some.inj proper
      exact .last .nil
    | pair a first rest _ ih =>
      obtain ⟨others, listed, rfl⟩ := Option.map_eq_some_iff.mp proper
      exact .pair a (ih listed)
    | _ => cases proper
  · intro chain
    generalize ends : Value.nil = last at chain
    induction chain with
    | last v =>
      subst ends
      rfl
    | pair a _ ih => rw [elements?_pair, ih ends, Option.map_some]

theorem elements_eq_ok_iff : v.elements = .ok items ↔ v.IsChain items .nil := by
  rw [← elements?_eq_some_iff, elements]
  split
  · next found proper => rw [proper, Except.ok.injEq, Option.some.injEq]
  · next improper => simp [improper]

/-- What is no list has no elements, and is shown as it is. -/
theorem elements_of_not_isChain (improper : ¬ ∃ items, v.IsChain items .nil) :
    v.elements = .error (.form (.improperList v.text)) := by
  unfold elements
  split
  · next items proper => exact absurd ⟨items, elements?_eq_some_iff.mp proper⟩ improper
  · rfl

/-- What the parts of a pair have that has it, the elements of a chain have too. -/
theorem IsChain.forall_mem {p : Value → Prop}
    (parts : ∀ {address first rest}, p (.pair address first rest) → p first ∧ p rest)
    (chain : v.IsChain items last) (has : p v) : ∀ item ∈ items, p item := by
  induction chain with
  | last v => exact List.forall_mem_nil _
  | pair a _ ih =>
    rw [List.forall_mem_cons]
    exact ⟨(parts has).1, ih (parts has).2⟩

end Value

/-! ## Building chains -/

namespace Alloc

theorem isChain_chain (items : List Value) (last : Value) (next : Address) :
    ((chain items last).run next).1.IsChain items last := by
  induction items with
  | nil => exact .last last
  | cons first items ih =>
    rw [chain_cons]
    exact .pair _ ih

/-- What ends a chain that is built of parts is the last of them. -/
theorem ofParts_concat (items : List Value) (last : Value) :
    ofParts (items ++ [last]) = chain items last := by
  induction items with
  | nil => rfl
  | cons first items ih =>
    rw [chain_cons, ← ih]
    cases items <;> rfl

end Alloc

end GuardedLisp
