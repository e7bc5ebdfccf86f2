import GuardedLisp.Proofs.Activation
import GuardedLisp.Proofs.Class.Lineage

/-!
# The order of ancestors, and what is copied from them

No class is looked for by going up through parents of parents.  The ancestors of a class are put
together once, from what its parents have put together before, and a class that is there already is
left out.  That comes to the same as to go all the way up: to the first parent, then to all that is
above it, then to the next parent, with each class kept where it is met first.  The way up ends,
since parents are made before their children.

A new class gets all names of its ancestors.  The ancestors are copied from the last to the first,
so what stays under a name is what the first ancestor has that has the name at all.

## Main definitions

* `Store.Climbs`: the classes that are met on the way up, as often as they are met
* `Store.Inherits`: a table that has been copied from ancestors
* `Store.MadeIn`: the store in which a class was made

## Main results

* `Store.Rooted.lineage_of_climbs`: a lineage is the way up with each class at its first place
* `Store.Reachable.inherits_newClass`: what a new class has
* `Store.Reachable.exists_madeIn`: every class but the first has been made below its parents
* `Store.Reachable.linearised`: how ancestors are arranged, and what is copied from them
* `Context.apply_newClass_eq_ok_iff`: the parents of a new class are the classes that the operands
  of the form stand for, in the order in which they are written
-/

namespace GuardedLisp

/-! ## First places -/

section FirstPlaces

variable {α : Type} [BEq α] [LawfulBEq α]

/-- To leave some out and to keep the first places goes in either order. -/
theorem eraseDups_filter (p : α → Bool) (items : List α) :
    (items.filter p).eraseDups = items.eraseDups.filter p :=
  match items with
  | [] => rfl
  | item :: items => by
    rw [List.eraseDups_cons, List.filter_cons, List.filter_cons, ← eraseDups_filter p]
    cases kept : p item with
    | true =>
      rw [if_pos rfl, if_pos rfl, List.eraseDups_cons, List.filter_filter, List.filter_filter]
      simp only [Bool.and_comm]
    | false =>
      -- The item is left out as it is, so it need not be left out again.
      rw [if_neg Bool.false_ne_true, if_neg Bool.false_ne_true, List.filter_filter]
      refine congrArg List.eraseDups (List.filter_congr fun other _ => ?_)
      by_cases same : other = item
      · simp [same, kept]
      · simp [same]
termination_by items.length
decreasing_by
  exact Nat.lt_succ_of_le (List.length_filter_le _ items)

/-- The first places in a list, from those in the rest of it. -/
theorem eraseDups_cons_eq (item : α) (items : List α) :
    (item :: items).eraseDups = item :: items.eraseDups.filter fun other => !other == item := by
  rw [List.eraseDups_cons, eraseDups_filter]

theorem nodup_eraseDups (items : List α) : items.eraseDups.Nodup := by
  induction items with
  | nil => exact List.nodup_nil
  | cons item items ih =>
    rw [eraseDups_cons_eq, List.nodup_cons]
    exact ⟨by simp, ih.filter _⟩

theorem eraseDups_eraseDups (items : List α) : items.eraseDups.eraseDups = items.eraseDups := by
  induction items with
  | nil => rfl
  | cons item items ih =>
    rw [eraseDups_cons_eq, eraseDups_cons_eq, eraseDups_filter, ih, List.filter_filter]
    simp only [Bool.and_self]

/-- The first places in two lists, one after the other, come of those in each of them. -/
theorem eraseDups_append_congr {first first' second second' : List α}
    (same : first.eraseDups = first'.eraseDups) (same' : second.eraseDups = second'.eraseDups) :
    (first ++ second).eraseDups = (first' ++ second').eraseDups := by
  have members (item : α) : first.elem item = first'.elem item := by
    rw [Bool.eq_iff_iff, List.elem_iff, List.elem_iff, ← List.mem_eraseDups, same,
      List.mem_eraseDups]
  simp only [List.eraseDups_append, List.removeAll, eraseDups_filter, same, same', members]

end FirstPlaces

namespace Store

variable {s s' : Store}

/-! ## The way up -/

/-- What is met on the way up from some classes: the first of them, then all that is met on the way
up from its parents, and then what is met from the other ones.  A class that several paths lead to
is met as often. -/
inductive Climbs (s : Store) : List ClassId → List ClassId → Prop
  | nil : Climbs s [] []
  | cons {id : ClassId} {ids above others : List ClassId} :
    Climbs s (s.classInfo id).parents above → Climbs s ids others →
      Climbs s (id :: ids) (id :: above ++ others)

namespace Rooted

variable (rooted : s.Rooted)

include rooted

/-- The way up ends. -/
theorem exists_climbs {bound : Nat} {ids : List ClassId} (below : ∀ id ∈ ids, id < bound) :
    ∃ walk, s.Climbs ids walk := by
  -- Induction on a bound of the classes, and on the classes under each bound.
  induction bound using Nat.strongRecOn generalizing ids with
  | ind bound ih =>
    induction ids with
    | nil => exact ⟨[], .nil⟩
    | cons id ids others =>
      obtain ⟨first, below⟩ := List.forall_mem_cons.mp below
      obtain ⟨above, up⟩ := ih id first (rooted.parents id)
      obtain ⟨walk, others⟩ := others below
      exact ⟨_, .cons up others⟩

/-- **A lineage is the way up**, with each class kept where it is met first. -/
theorem lineage_of_climbs {ids walk : List ClassId} (climbs : s.Climbs ids walk) :
    s.lineage ids = walk.eraseDups := by
  induction climbs with
  | nil => rfl
  | @cons id ids above others _ _ up along =>
    have ancestors : (s.classInfo id).ancestors.eraseDups = above.eraseDups := by
      rw [rooted.ancestors, up, eraseDups_eraseDups]
    rw [lineage] at along ⊢
    refine eraseDups_append_congr ?_ along
    rw [eraseDups_cons_eq, eraseDups_cons_eq, ancestors]

theorem nodup_ancestors (id : ClassId) : (s.classInfo id).ancestors.Nodup := by
  rw [rooted.ancestors]
  exact nodup_eraseDups _

theorem parents_subset_ancestors (id : ClassId) :
    (s.classInfo id).parents ⊆ (s.classInfo id).ancestors := by
  intro parent mem
  rw [rooted.ancestors, mem_lineage]
  exact ⟨parent, mem, .inl rfl⟩

/-- With a class all its parents are among the ancestors. -/
theorem mem_ancestors_of_mem_parents {id above parent : ClassId}
    (mem : above ∈ (s.classInfo id).ancestors) (isParent : parent ∈ (s.classInfo above).parents) :
    parent ∈ (s.classInfo id).ancestors :=
  rooted.ancestors_trans mem (rooted.parents_subset_ancestors above isParent)

end Rooted

/-! ## What is copied -/

/-- A table that has been copied from ancestors, as they were in a store.  It has all their names
and no others, and under each name a copy of what the first of them has that has the name.  A copy
has the value, the datatype and the permission of what was copied, but is not virtual. -/
structure Inherits (s : Store) (ancestors : List ClassId) (table : SlotTable) : Prop where
  nodup : table.names.Nodup
  mem_names (name : Symbol) :
    name ∈ table.names ↔ ∃ id ∈ ancestors, name ∈ (s.slots id).names
  copied (name : Symbol) (slot : Slot) : table.find? name = some slot →
    ∃ before giver after own, ancestors = before ++ giver :: after ∧
      (∀ id ∈ before, name ∉ (s.slots id).names) ∧ (s.slots giver).find? name = some own ∧
      slot.value = own.value ∧ slot.datatype = own.datatype ∧
      slot.permission = { own.permission with isVirtual := false }

theorem inherits_inheritance (nodup : ∀ id, (s.slots id).names.Nodup) (ancestors : List ClassId) :
    s.Inherits ancestors (s.inheritance ancestors) where
  nodup := s.nodup_names_inheritance ancestors
  mem_names name := by
    rw [SlotTable.mem_names_iff, find?_inheritance nodup, Option.isSome_map,
      List.findSome?_isSome_iff]
    simp only [SlotTable.mem_names_iff]
  copied name slot found := by
    rw [find?_inheritance nodup, Option.map_eq_some_iff] at found
    obtain ⟨own, first, rfl⟩ := found
    obtain ⟨before, giver, after, same, has, none⟩ := List.findSome?_eq_some_iff.mp first
    refine ⟨before, giver, after, own, same, fun id mem => ?_, has, rfl, rfl, rfl⟩
    simp [SlotTable.mem_names_iff, none id mem]

/-- What a new class has, and that no class above it is changed. -/
theorem Reachable.inherits_newClass (reachable : s.Reachable) (parents : List ClassId) :
    let made := s.newClass parents
    s.Inherits (made.2.classInfo made.1).ancestors (made.2.slots made.1) ∧
      ∀ other < s.classes.size, made.2.classInfo other = s.classInfo other := by
  intro made
  have new : made.2.classInfo made.1 =
      ⟨parents, s.lineage parents, s.inheritance (s.lineage parents)⟩ := by
    rw [classInfo_newClass]
    exact if_pos rfl
  refine ⟨?_, fun other isMade => classInfo_newClass_of_made isMade parents⟩
  rw [slots, new]
  exact inherits_inheritance reachable.nodup_slots _

/-! ## Every class has been made so -/

/-- A class keeps its parents. -/
theorem parents_of_move (move : s.Move s') {id : ClassId} (made : id < s.classes.size) :
    (s'.classInfo id).parents = (s.classInfo id).parents := by
  cases move with
  | act action _ =>
    obtain ⟨parents, -, classes⟩ | ⟨target, table, -, classes⟩ := action.classes_after s
    · rw [classInfo, classes]
      exact congrArg ClassInfo.parents (classInfo_newClass_of_made made parents)
    · rw [classInfo, classes]
      exact parents_setSlots s target id table
  | read | takeOutput => rfl

/-- A move that makes a class makes it below classes that have been made, and does nothing else. -/
theorem exists_newClass_of_move (move : s.Move s') {id : ClassId} (absent : s.classes.size ≤ id)
    (made : id < s'.classes.size) :
    ∃ parents, (∀ parent ∈ parents, parent < s.classes.size) ∧ s' = (s.newClass parents).2 := by
  cases move with
  | act action given =>
    obtain ⟨parents, below, -⟩ | ⟨target, table, -, classes⟩ := action.classes_after s
    · have above := Action.made_of_mem_parents? given below
      cases action with
      | newClass parents' =>
        obtain rfl := Option.some.inj below
        exact ⟨parents', above, rfl⟩
      | _ => cases below
    · rw [classes, size_setSlots] at made
      exact absurd made (Nat.not_lt.mpr absent)
  | read | takeOutput => exact absurd made (Nat.not_lt.mpr absent)

/-- The store in which a class of a later store was made below its parents. -/
structure MadeIn (s : Store) (id : ClassId) (before : Store) : Prop where
  reachable : before.Reachable
  next : before.classes.size = id
  parents : ∀ parent ∈ (s.classInfo id).parents, parent < before.classes.size
  since : (before.newClass (s.classInfo id).parents).2.Moves s

/-- Every class but the first has been made below its parents. -/
theorem Reachable.exists_madeIn (reachable : s.Reachable) {id : ClassId}
    (made : id < s.classes.size) (later : id ≠ baseClass) : ∃ before, s.MadeIn id before := by
  induction reachable with
  | refl => exact absurd (Nat.lt_one_iff.mp made) later
  | @tail s s' moves move ih =>
    rcases Nat.lt_or_ge id s.classes.size with madeBefore | absent
    · obtain ⟨before, reachable, next, parents, since⟩ := ih madeBefore
      have same := parents_of_move move madeBefore
      exact ⟨before, reachable, next, same ▸ parents, same ▸ since.tail move⟩
    · obtain ⟨parents, below, rfl⟩ := exists_newClass_of_move move absent made
      have next : s.classes.size = id := by
        simp only [newClass, Array.size_push] at made
        exact Nat.le_antisymm absent (Nat.le_of_lt_succ made)
      have own : ((s.newClass parents).2.classInfo id).parents = parents := by
        rw [classInfo_newClass, if_pos next.symm]
      exact ⟨s, moves, next, own.symm ▸ below, own.symm ▸ .refl⟩

/-- **How ancestors are arranged, and what is copied from them.**  In a reachable store, the
ancestors of a class are what is met on the way up from its parents, each class where it is met
first.  They are all older than the class, so it is not one of them; no class is among them twice;
and its parents and theirs are among them.  A class that is made now has copies of the slots of its
ancestors, of the first one that has the name, and leaves all other classes as they are.  And every
class but the first has been made in this way. -/
theorem Reachable.linearised (reachable : s.Reachable) :
    (∀ id,
      (∃ walk, s.Climbs (s.classInfo id).parents walk) ∧
      (∀ walk, s.Climbs (s.classInfo id).parents walk →
        (s.classInfo id).ancestors = walk.eraseDups) ∧
      (s.classInfo id).ancestors.Nodup ∧
      (∀ above ∈ (s.classInfo id).ancestors, above < id) ∧
      (s.classInfo id).parents ⊆ (s.classInfo id).ancestors ∧
      ∀ above ∈ (s.classInfo id).ancestors,
        (s.classInfo above).parents ⊆ (s.classInfo id).ancestors) ∧
    (∀ parents,
      let made := s.newClass parents
      made.1 = s.classes.size ∧ (made.2.classInfo made.1).parents = parents ∧
      s.Inherits (made.2.classInfo made.1).ancestors (made.2.slots made.1) ∧
      ∀ other < s.classes.size, made.2.classInfo other = s.classInfo other) ∧
    ∀ id < s.classes.size, id ≠ baseClass → ∃ before, s.MadeIn id before := by
  have rooted := reachable.rooted
  refine ⟨fun id => ⟨?_, ?_, ?_, ?_, ?_, ?_⟩, fun parents => ?_, ?_⟩
  · exact rooted.exists_climbs (rooted.parents id)
  · intro walk climbs
    rw [rooted.ancestors, rooted.lineage_of_climbs climbs]
  · exact rooted.nodup_ancestors id
  · exact fun above mem => rooted.lt_of_mem_ancestors mem
  · exact rooted.parents_subset_ancestors id
  · exact fun above mem parent isParent => rooted.mem_ancestors_of_mem_parents mem isParent
  · refine ⟨rfl, ?_, reachable.inherits_newClass parents⟩
    rw [classInfo_newClass]
    exact congrArg ClassInfo.parents (if_pos rfl)
  · exact fun id made later => reachable.exists_madeIn made later

end Store

/-! ## The form that makes classes -/

namespace Context

variable {ctx : Context} {scope : Scope} {terms : List Value} {s s' : Store}

theorem evalClass_eq_ok_iff {term : Value} {id : ClassId} :
    (ctx.level.evalClass ctx.grants scope term : EvalM ClassId) s = .ok id s' ↔
      (ctx.eval scope term : EvalM Value) s = .ok (.classObject id) s' := by
  constructor
  · intro ran
    obtain ⟨v, s₁, value, ended⟩ := EvalM.exists_of_bind_eq_ok ran
    cases v with
    | classObject id' =>
      cases ended
      exact value
    | _ => cases ended
  · exact fun value => EvalM.bind_of_ok value _

theorem mapM_evalClass_eq_ok_iff {ids : List ClassId} :
    (terms.mapM (ctx.level.evalClass ctx.grants scope) : EvalM (List ClassId)) s = .ok ids s' ↔
      (ctx.evalAll scope terms : EvalM (List Value)) s = .ok (ids.map .classObject) s' := by
  unfold evalAll Level.evalAll
  induction terms generalizing s ids with
  | nil =>
    have same : ids = [] ↔ ids.map Value.classObject = [] := List.map_eq_nil_iff.symm
    simp only [List.mapM_nil, pure, EStateM.pure, EStateM.Result.ok.injEq, @eq_comm _ [], same]
  | cons term terms ih =>
    rw [List.mapM_cons, List.mapM_cons]
    constructor
    · intro ran
      obtain ⟨id, s₁, first, ran⟩ := EvalM.exists_of_bind_eq_ok ran
      obtain ⟨others, s₂, rest, ended⟩ := EvalM.exists_of_bind_eq_ok ran
      cases ended
      exact (EvalM.bind_of_ok (evalClass_eq_ok_iff.mp first) _).trans
        (EvalM.bind_of_ok (ih.mp rest) _)
    · intro ran
      obtain ⟨v, s₁, first, ran⟩ := EvalM.exists_of_bind_eq_ok ran
      obtain ⟨values, s₂, rest, ended⟩ := EvalM.exists_of_bind_eq_ok ran
      obtain ⟨same, rfl⟩ := EStateM.Result.ok.inj ended
      obtain ⟨id, others, rfl, rfl, rfl⟩ := List.map_eq_cons_iff.mp same.symm
      exact (EvalM.bind_of_ok (evalClass_eq_ok_iff.mpr first) _).trans
        (EvalM.bind_of_ok (ih.mpr rest) _)

/-- **The parents of a new class** are the classes that the operands of the form stand for, in the
order in which they are written. -/
theorem apply_newClass_eq_ok_iff {v : Value} :
    (ctx.apply scope (.builtin (.form .newClass)) terms : EvalM Value) s = .ok v s' ↔
      ∃ (parents : List ClassId) (s₁ : Store),
        (ctx.evalAll scope terms : EvalM (List Value)) s = .ok (parents.map .classObject) s₁ ∧
        v = .classObject (s₁.newClass parents).1 ∧ s' = (s₁.newClass parents).2 := by
  rw [apply_eq_body]
  show (ctx.level.newClass ctx.grants scope terms : EvalM Value) s = .ok v s' ↔ _
  constructor
  · intro ran
    obtain ⟨parents, s₁, values, ended⟩ := EvalM.exists_of_bind_eq_ok ran
    cases ended
    exact ⟨parents, s₁, mapM_evalClass_eq_ok_iff.mp values, rfl, rfl⟩
  · rintro ⟨parents, s₁, values, rfl, rfl⟩
    exact EvalM.bind_of_ok (mapM_evalClass_eq_ok_iff.mpr values) _

end Context

/-- The store in which a class below the classes 2 and 3 has been made, which are both below the
class 1. -/
def joined : Store := (laidOut.newClass [2, 3]).2

theorem reachable_joined : joined.Reachable := by
  have made : ∀ parent ∈ [2, 3], parent < laidOut.classes.size := by
    have size : laidOut.classes.size = 4 := by rfl
    simp [size]
  refine reachable_laidOut.moves (.single (.act (.newClass [2, 3]) fun v mem => ?_))
  obtain ⟨parent, isParent, rfl⟩ := List.mem_map.mp mem
  rintro id ⟨⟩
  exact made parent isParent

/-- The paths to the class 1 meet, so it is met twice on the way up and listed once. -/
theorem linearised_joined :
    joined.Climbs [2, 3] [2, 1, 0, 3, 1, 0] ∧
      (joined.classInfo 4).ancestors = [2, 1, 0, 3, 1, 0].eraseDups ∧
      (joined.classInfo 4).ancestors = [2, 1, 0, 3] ∧ ∃ before, joined.MadeIn 4 before := by
  have top : joined.Climbs [0] [0] := @Store.Climbs.cons joined 0 [] [] [] .nil .nil
  have mid : joined.Climbs [1] [1, 0] := @Store.Climbs.cons joined 1 [] [0] [] top .nil
  have last : joined.Climbs [3] [3, 1, 0] := @Store.Climbs.cons joined 3 [] [1, 0] [] mid .nil
  have climbs : joined.Climbs [2, 3] [2, 1, 0, 3, 1, 0] :=
    @Store.Climbs.cons joined 2 [3] [1, 0] _ mid last
  obtain ⟨arranged, -, madeIn⟩ := Store.Reachable.linearised reachable_joined
  exact ⟨climbs, (arranged 4).2.1 _ climbs, by rfl, madeIn 4 (by decide) (by decide)⟩

end GuardedLisp
