import GuardedLisp.Proofs.Reachable

/-!
# Lineages, and which ancestor gives a slot

Parents are made before their children, so what is above a class is found by going up: first to the
first parent and all that is above it, then to the next one.  The first class in that order that has
a name gives the slot.  On one path upwards that is the nearest one.  Where paths meet again above,
it need not be: a class is met from the first of the paths that lead to it, before the nearer ones
on the other paths, even those that descend from it.

## Main definitions

* `Store.Rooted`: parents are made before their children, and lineages go by parents
* `Store.AtOrBelow`: a class is another one or descends from it
* `Store.PassesBy`: some parents lead to one class before they lead to another

## Main results

* `Store.Reachable.rooted`: reachable stores are rooted
* `Store.Rooted.descends_iff`: a class descends from its ancestors and from no others
* `Store.Reachable.given_slot`: which ancestor gives a slot, and when it is not the nearest
-/

namespace GuardedLisp

namespace Store

variable {s s' : Store}

/-! ## Rooted stores -/

/-- Parents come before their children, and the ancestors of a class are the lineage of its
parents. -/
structure Rooted (s : Store) : Prop where
  parents (id : ClassId) : ∀ parent ∈ (s.classInfo id).parents, parent < id
  ancestors (id : ClassId) : (s.classInfo id).ancestors = s.lineage (s.classInfo id).parents

theorem mem_lineage {parents : List ClassId} {above : ClassId} :
    above ∈ s.lineage parents ↔
      ∃ parent ∈ parents, above = parent ∨ above ∈ (s.classInfo parent).ancestors := by
  simp only [lineage, List.mem_eraseDups, List.mem_flatMap, List.mem_cons]

/-- A lineage depends on what is above the parents only. -/
theorem lineage_congr {parents : List ClassId}
    (same : ∀ parent ∈ parents, (s'.classInfo parent).ancestors = (s.classInfo parent).ancestors) :
    s'.lineage parents = s.lineage parents := by
  simp only [lineage, List.flatMap_def]
  rw [List.map_congr_left fun parent mem => congrArg (parent :: ·) (same parent mem)]

/-- Only what is above a class counts. -/
theorem Rooted.of_same (rooted : s.Rooted)
    (parents : ∀ id, (s'.classInfo id).parents = (s.classInfo id).parents)
    (ancestors : ∀ id, (s'.classInfo id).ancestors = (s.classInfo id).ancestors) : s'.Rooted where
  parents id := parents id ▸ rooted.parents id
  ancestors id := by
    rw [ancestors, parents, rooted.ancestors, lineage_congr fun parent _ => ancestors parent]

theorem parents_setSlots (s : Store) (id other : ClassId) (table : SlotTable) :
    ((s.setSlots id table).classInfo other).parents = (s.classInfo other).parents := by
  simp only [classInfo, setSlots, Array.getElem?_modify]
  split
  · cases s.classes[other]? <;> rfl
  · rfl

theorem Rooted.setSlots (rooted : s.Rooted) (id : ClassId) (table : SlotTable) :
    (s.setSlots id table).Rooted :=
  rooted.of_same (fun other => parents_setSlots s id other table)
    fun other => ancestors_setSlots s id other table

/-- A class below classes that have been made leaves the store rooted. -/
theorem Rooted.newClass (rooted : s.Rooted) {parents : List ClassId}
    (made : ∀ parent ∈ parents, parent < s.classes.size) : (s.newClass parents).2.Rooted := by
  have old {id : ClassId} (other : id ≠ s.classes.size) :
      (s.newClass parents).2.classInfo id = s.classInfo id := by
    rw [classInfo_newClass, if_neg other]
  have new : (s.newClass parents).2.classInfo s.classes.size =
      ⟨parents, s.lineage parents, s.inheritance (s.lineage parents)⟩ := by
    rw [classInfo_newClass, if_pos rfl]
  constructor
  · intro id
    by_cases other : id = s.classes.size
    · subst other
      rwa [new]
    · rw [old other]
      exact rooted.parents id
  · intro id
    by_cases other : id = s.classes.size
    · subst other
      rw [new]
      exact (lineage_congr fun parent mem => by rw [old (Nat.ne_of_lt (made parent mem))]).symm
    · rw [old other, rooted.ancestors]
      refine (lineage_congr fun parent mem => ?_).symm
      -- The new class is above nothing, since there is nothing after it that could have parents.
      have before := rooted.parents id parent mem
      rcases Nat.lt_or_ge id s.classes.size with isMade | absent
      · rw [old (Nat.ne_of_lt (Nat.lt_trans before isMade))]
      · simp [classInfo, Array.getElem?_eq_none absent] at mem

theorem rooted_initial : initial.Rooted := by
  have alone (id : ClassId) : initial.classInfo id = {} := by
    match id with
    | 0 => rfl
    | id + 1 => rfl
  constructor
  · intro id
    rw [alone]
    nofun
  · intro id
    rw [alone]
    rfl

end Store

/-- Only a class that is made below others is given parents. -/
theorem Action.made_of_mem_parents? {s : Store} {action : Action α} {parents : List ClassId}
    (given : ∀ v ∈ action.operands, v.Made s) (below : parents ∈ action.parents?) :
    ∀ parent ∈ parents, parent < s.classes.size := by
  cases action with
  | newClass parents' =>
    obtain rfl := Option.some.inj below
    exact fun parent mem => given _ (List.mem_map_of_mem mem) parent rfl
  | _ => cases below

namespace Store

variable {s : Store}

/-- Reachable stores are rooted. -/
theorem Reachable.rooted (reachable : s.Reachable) : s.Rooted := by
  induction reachable with
  | refl => exact rooted_initial
  | @tail s _ _ move rooted =>
    cases move with
    | act action given =>
      have same {s' : Store} (classes : (action.run.after s).classes = s'.classes)
          (rooted : s'.Rooted) : (action.run.after s).Rooted :=
        rooted.of_same (fun id => by simp only [classInfo, classes])
          fun id => by simp only [classInfo, classes]
      obtain ⟨parents, below, classes⟩ | ⟨id, table, -, classes⟩ := action.classes_after s
      · exact same classes (rooted.newClass (Action.made_of_mem_parents? given below))
      · exact same classes (rooted.setSlots id table)
    | read | takeOutput => exact rooted.of_same (fun _ => rfl) fun _ => rfl

/-! ## Ancestors -/

namespace Rooted

variable (rooted : s.Rooted)

include rooted

theorem lt_of_mem_ancestors {id above : ClassId} (mem : above ∈ (s.classInfo id).ancestors) :
    above < id := by
  induction id using Nat.strongRecOn with
  | ind id ih =>
    rw [rooted.ancestors, mem_lineage] at mem
    obtain ⟨parent, isParent, rfl | mem⟩ := mem
    · exact rooted.parents id above isParent
    · have before := rooted.parents id parent isParent
      exact Nat.lt_trans (ih parent before mem) before

/-- What is above an ancestor is an ancestor. -/
theorem ancestors_trans {id mid above : ClassId} (first : mid ∈ (s.classInfo id).ancestors)
    (second : above ∈ (s.classInfo mid).ancestors) : above ∈ (s.classInfo id).ancestors := by
  induction id using Nat.strongRecOn with
  | ind id ih =>
    rw [rooted.ancestors, mem_lineage] at first ⊢
    obtain ⟨parent, isParent, rfl | first⟩ := first
    · exact ⟨mid, isParent, .inr second⟩
    · exact ⟨parent, isParent, .inr (ih parent (rooted.parents id parent isParent) first)⟩

/-- A class descends from its ancestors and from no others. -/
theorem descends_iff {id above : ClassId} :
    s.Descends id above ↔ above ∈ (s.classInfo id).ancestors := by
  refine ⟨fun descends => ?_, fun mem => .single mem⟩
  induction descends with
  | single mem => exact mem
  | tail _ mem ancestor => exact rooted.ancestors_trans ancestor mem

theorem lt_of_descends {id above : ClassId} (descends : s.Descends id above) : above < id :=
  rooted.lt_of_mem_ancestors (rooted.descends_iff.mp descends)

end Rooted

/-! ## Which ancestor gives a slot -/

/-- A class is another one or descends from it. -/
def AtOrBelow (s : Store) (id above : ClassId) : Prop := id = above ∨ s.Descends id above

theorem Rooted.mem_lineage_iff (rooted : s.Rooted) {parents : List ClassId} {above : ClassId} :
    above ∈ s.lineage parents ↔ ∃ parent ∈ parents, s.AtOrBelow parent above := by
  simp only [mem_lineage, AtOrBelow, rooted.descends_iff, eq_comm]

/-- In a list of parents, one that is `giver` or descends from it stands before all that are
`nearer` or descend from it. -/
def PassesBy (s : Store) (parents : List ClassId) (giver nearer : ClassId) : Prop :=
  ∃ before parent after, parents = before ++ parent :: after ∧ s.AtOrBelow parent giver ∧
    (∀ other ∈ before ++ [parent], ¬s.AtOrBelow other nearer) ∧
    ∃ other ∈ after, s.AtOrBelow other nearer

theorem find?_eraseDups (p : ClassId → Bool) (ids : List ClassId) :
    ids.eraseDups.find? p = ids.find? p :=
  match ids with
  | [] => rfl
  | id :: ids => by
    rw [List.eraseDups_cons, List.find?_cons, List.find?_cons, find?_eraseDups, List.find?_filter]
    cases first : p id with
    | true => rfl
    | false =>
      show ids.find? _ = ids.find? p
      congr 1
      funext other
      by_cases same : other = id
      · simp [same, first]
      · simp [same]
termination_by ids.length
decreasing_by
  exact Nat.lt_succ_of_le (List.length_filter_le _ ids)

/-- The first in a lineage is the first that some parent leads to. -/
theorem find?_lineage (p : ClassId → Bool) (parents : List ClassId) :
    (s.lineage parents).find? p =
      parents.findSome? fun parent => (parent :: (s.classInfo parent).ancestors).find? p := by
  rw [lineage, find?_eraseDups, List.find?_flatMap]

/-- A parent that leads to the giver first, and is the nearer class or descends from it, is not the
nearer class, and does not have what is looked for. -/
theorem Rooted.descends_of_leads (rooted : s.Rooted) {has : ClassId → Bool}
    {giver nearer parent : ClassId} (hasToo : has nearer = true)
    (descends : s.Descends nearer giver) (both : s.AtOrBelow parent nearer)
    (leads : (parent :: (s.classInfo parent).ancestors).find? has = some giver) :
    s.Descends parent nearer ∧ has parent = false := by
  rw [List.find?_cons] at leads
  have below : s.Descends parent nearer := by
    refine both.resolve_left fun same => ?_
    subst same
    rw [hasToo] at leads
    obtain rfl := Option.some.inj leads
    exact Nat.lt_irrefl _ (rooted.lt_of_descends descends)
  refine ⟨below, Bool.eq_false_iff.mpr fun hasName => ?_⟩
  rw [hasName] at leads
  obtain rfl := Option.some.inj leads
  exact Nat.lt_asymm (rooted.lt_of_descends descends) (rooted.lt_of_descends below)

/-- The list of parents in which the paths to the giver and to the nearer class part. -/
theorem Rooted.passesBy_of_leads (rooted : s.Rooted) {has : ClassId → Bool}
    {giver nearer parent : ClassId} {before after : List ClassId}
    (notBefore : ∀ other ∈ before, ¬s.AtOrBelow other nearer) (notThis : ¬s.AtOrBelow parent nearer)
    (leads : (parent :: (s.classInfo parent).ancestors).find? has = some giver)
    (mem : nearer ∈ s.lineage (before ++ parent :: after)) :
    s.PassesBy (before ++ parent :: after) giver nearer := by
  refine ⟨before, parent, after, rfl, ?_, ?_, ?_⟩
  · rcases List.mem_cons.mp (List.mem_of_find?_eq_some leads) with rfl | above
    · exact .inl rfl
    · exact .inr (rooted.descends_iff.mpr above)
  · intro other mem
    rcases List.mem_append.mp mem with isBefore | isThis
    · exact notBefore other isBefore
    · exact List.mem_singleton.mp isThis ▸ notThis
  · -- The nearer class is in the lineage, so one of the parents that are left leads to it.
    obtain ⟨other, isOther, leadsToo⟩ := rooted.mem_lineage_iff.mp mem
    rcases List.mem_append.mp isOther with isBefore | isAfter
    · exact absurd leadsToo (notBefore other isBefore)
    · rcases List.mem_cons.mp isAfter with rfl | isAfter
      · exact absurd leadsToo notThis
      · exact ⟨other, isAfter, leadsToo⟩

/-- If the first class of a lineage that has a property is above another one that has it too, some
list of parents leads to the first class past the other one. -/
theorem Rooted.exists_passesBy (rooted : s.Rooted) {has : ClassId → Bool} {giver nearer : ClassId}
    (hasToo : has nearer = true) (descends : s.Descends nearer giver) {n : Nat}
    {parents : List ClassId} (bound : ∀ parent ∈ parents, parent < n)
    (first : (s.lineage parents).find? has = some giver) (mem : nearer ∈ s.lineage parents) :
    ∃ above, (above = parents ∨ ∃ id ∈ s.lineage parents, above = (s.classInfo id).parents) ∧
      s.PassesBy above giver nearer := by
  -- Induction along the path upwards, as long as the same parent leads to both.
  induction n using Nat.strongRecOn generalizing parents with
  | ind n ih =>
    rw [find?_lineage, List.findSome?_eq_some_iff] at first
    obtain ⟨before, parent, after, rfl, leads, none⟩ := first
    have isParent : parent ∈ before ++ parent :: after := by simp
    have notBefore (other : ClassId) (isBefore : other ∈ before) : ¬s.AtOrBelow other nearer := by
      have without := List.find?_eq_none.mp (none other isBefore)
      rintro (rfl | below)
      · exact without other (.head _) hasToo
      · exact without nearer (.tail _ (rooted.descends_iff.mp below)) hasToo
    by_cases both : s.AtOrBelow parent nearer
    · obtain ⟨below, hasNot⟩ := rooted.descends_of_leads hasToo descends both leads
      rw [List.find?_cons, hasNot, rooted.ancestors] at leads
      have mem : nearer ∈ s.lineage (s.classInfo parent).parents :=
        rooted.ancestors parent ▸ rooted.descends_iff.mp below
      obtain ⟨above, isAbove, passes⟩ :=
        ih parent (bound parent isParent) (rooted.parents parent) leads mem
      refine ⟨above, .inr ?_, passes⟩
      obtain rfl | ⟨id, mem, rfl⟩ := isAbove
      · exact ⟨parent, mem_lineage.mpr ⟨parent, isParent, .inl rfl⟩, rfl⟩
      · rw [← rooted.ancestors] at mem
        exact ⟨id, mem_lineage.mpr ⟨parent, isParent, .inr mem⟩, rfl⟩
    · exact ⟨_, .inl rfl, rooted.passesBy_of_leads notBefore both leads mem⟩

/-- **Which ancestor gives a slot.**  What a new class has under a name is a copy of what one of its
ancestors has, and the first one in its lineage that has the name.  If the name is also in an
ancestor that descends from the giver, then the giver is inherited past it: the new class or an
ancestor of it lists a parent that is the giver or descends from it, before all parents that are
the nearer class or descend from it. -/
theorem Reachable.given_slot (reachable : s.Reachable) {parents : List ClassId}
    (made : ∀ parent ∈ parents, parent < s.classes.size) {name : Symbol} {slot : Slot}
    (found : ((s.newClass parents).2.slots (s.newClass parents).1).find? name = some slot) :
    ∃ giver own, (s.lineage parents).find? (fun id => (s.slots id).contains name) = some giver ∧
      (s.slots giver).find? name = some own ∧ slot = own.inherited ∧
      ∀ nearer ∈ s.lineage parents, (s.slots nearer).contains name = true →
        s.Descends nearer giver →
          ∃ above,
            (above = parents ∨ ∃ id ∈ s.lineage parents, above = (s.classInfo id).parents) ∧
              s.PassesBy above giver nearer := by
  have new : (s.newClass parents).2.slots (s.newClass parents).1 =
      s.inheritance (s.lineage parents) := by
    rw [slots_newClass]
    exact if_pos rfl
  rw [new, find?_inheritance reachable.nodup_slots, Option.map_eq_some_iff] at found
  obtain ⟨own, first, rfl⟩ := found
  obtain ⟨before, giver, after, lineage, has, none⟩ := List.findSome?_eq_some_iff.mp first
  have isFirst : (s.lineage parents).find? (fun id => (s.slots id).contains name) = some giver := by
    rw [List.find?_eq_some_iff_append]
    refine ⟨by simp [SlotTable.contains, has], before, after, lineage, fun id isBefore => ?_⟩
    simp [SlotTable.contains, none id isBefore]
  refine ⟨giver, own, isFirst, has, rfl, fun nearer mem hasToo descends => ?_⟩
  exact reachable.rooted.exists_passesBy hasToo descends made isFirst mem

end Store

/-- The term `((lambda (a) ((lambda (b d) (class-define! a x) (class-set! a x 'far)
(class-define! d x) (class-set! d x 'near)) (class a) (class a))) (class BaseClass))`.  It makes a
class, and two classes below it that have nothing from it. -/
def layOut : Value :=
  let a : Value := .symbol ⟨35, "a"⟩
  let b : Value := .symbol ⟨36, "b"⟩
  let d : Value := .symbol ⟨37, "d"⟩
  let x : Value := .symbol ⟨38, "x"⟩
  let form (form : SpecialForm) : List Value → Value := .applied (.builtin (.form form))
  let text (name : Symbol) : Value := form .quote [.symbol name]
  let setter := form .lambda [.applied b [d], form .classDefine [a, x],
    form .classSet [a, x, text ⟨39, "far"⟩], form .classDefine [d, x],
    form .classSet [d, x, text ⟨40, "near"⟩]]
  let maker := form .lambda [.applied a [],
    .applied setter [form .newClass [a], form .newClass [a]]]
  .applied maker [form .newClass [.classObject baseClass]]

theorem made_layOut : layOut.Made .initial := by
  simp [layOut, Value.applied, Vocabulary.Covers, Value.Every, Vocabulary.made, baseClass,
    Store.initial]

/-- The store in which the classes 2 and 3 are below the class 1, and the classes 1 and 3 each have
a slot `x` of their own. -/
def laidOut : Store :=
  let bound (id : ClassId) : Slot := { value := some (.classObject id) }
  let own (name : Symbol) : SlotTable :=
    { entries := [(⟨38, "x"⟩, { value := some (.symbol name) })] }
  { frames := Store.initial.frames ++
      #[{ entries := [(⟨35, "a"⟩, bound 1)] },
        { entries := [(⟨36, "b"⟩, bound 2), (⟨37, "d"⟩, bound 3)] }]
    classes := #[{}, ⟨[0], [0], own ⟨39, "far"⟩⟩, ⟨[1], [1, 0], {}⟩,
      ⟨[1], [1, 0], own ⟨40, "near"⟩⟩]
    nextAddress := 9 }

theorem after_layOut : EvalM.after (Context.eval {} globalScope layOut) .initial = laidOut := by
  decide +kernel

theorem reachable_laidOut : laidOut.Reachable :=
  after_layOut ▸ Store.reachable_initial.moves
    (Store.reachable_initial.moves_eval {} globalScope made_layOut).1

/-- A class below the classes 2 and 3 gets its slot `x` from the class 1, though the class 3 is
nearer and descends from the class 1. -/
theorem nearer_parent_loses :
    laidOut.Reachable ∧ 3 ∈ laidOut.lineage [2, 3] ∧ laidOut.Descends 3 1 ∧
      (laidOut.slots 1).find? ⟨38, "x"⟩ = some { value := some (.symbol ⟨39, "far"⟩) } ∧
      (laidOut.slots 3).find? ⟨38, "x"⟩ = some { value := some (.symbol ⟨40, "near"⟩) } ∧
      ((laidOut.newClass [2, 3]).2.slots (laidOut.newClass [2, 3]).1).find? ⟨38, "x"⟩ =
        some { value := some (.symbol ⟨39, "far"⟩) } := by
  refine ⟨reachable_laidOut, ?_, .single ?_, by rfl, by rfl, by rfl⟩
  · have lineage : laidOut.lineage [2, 3] = [2, 1, 0, 3] := by rfl
    simp [lineage]
  · have ancestors : (laidOut.classInfo 3).ancestors = [1, 0] := by rfl
    simp [ancestors]

theorem given_slot_laidOut :
    ∃ giver own,
      (laidOut.lineage [2, 3]).find? (fun id => (laidOut.slots id).contains ⟨38, "x"⟩) =
        some giver ∧
      (laidOut.slots giver).find? ⟨38, "x"⟩ = some own ∧
      { value := some (.symbol ⟨39, "far"⟩) } = own.inherited ∧
      ∀ nearer ∈ laidOut.lineage [2, 3], (laidOut.slots nearer).contains ⟨38, "x"⟩ = true →
        laidOut.Descends nearer giver →
          ∃ above,
            (above = [2, 3] ∨
              ∃ id ∈ laidOut.lineage [2, 3], above = (laidOut.classInfo id).parents) ∧
              laidOut.PassesBy above giver nearer := by
  have made : ∀ parent ∈ [2, 3], parent < laidOut.classes.size := by
    have size : laidOut.classes.size = 4 := by rfl
    simp [size]
  exact Store.Reachable.given_slot reachable_laidOut made (by rfl)

end GuardedLisp
