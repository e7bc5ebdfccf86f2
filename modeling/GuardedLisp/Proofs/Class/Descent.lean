import GuardedLisp.Proofs.Run

/-!
# Descent between classes

What is above a class is settled when the class is made.  So a run only adds classes, and a class
that descends from another one goes on to do so.

## Main definitions

* `Store.Extends`: a store with more classes, in which nothing else is above the old ones
* `Store.Descends`: one class is above another, or above one that is above it

## Main results

* `Store.extends_of_reaches`: a run extends the store
* `Store.Descends.of_extends`: descent is kept
-/

namespace GuardedLisp

namespace Store

theorem size_setSlots (s : Store) (id : ClassId) (table : SlotTable) :
    (s.setSlots id table).classes.size = s.classes.size :=
  Array.size_modify

/-- Other slots of a class do not change what is above any class. -/
theorem ancestors_setSlots (s : Store) (id other : ClassId) (table : SlotTable) :
    ((s.setSlots id table).classInfo other).ancestors = (s.classInfo other).ancestors := by
  simp only [classInfo, setSlots, Array.getElem?_modify]
  split
  · cases s.classes[other]? <;> rfl
  · rfl

/-- A store with more classes, in which nothing else is above the old ones. -/
structure Extends (s s' : Store) : Prop where
  size : s.classes.size ≤ s'.classes.size
  ancestors : ∀ id < s.classes.size, (s'.classInfo id).ancestors = (s.classInfo id).ancestors

namespace Extends

theorem of_classes_eq {s s' : Store} (h : s'.classes = s.classes) : s.Extends s' := by
  refine ⟨Nat.le_of_eq (congrArg Array.size h.symm), fun id _ => ?_⟩
  simp only [classInfo, h]

theorem refl (s : Store) : s.Extends s := of_classes_eq rfl

theorem trans {s s' s'' : Store} (first : s.Extends s') (second : s'.Extends s'') :
    s.Extends s'' := by
  refine ⟨Nat.le_trans first.size second.size, fun id made => ?_⟩
  rw [second.ancestors id (Nat.lt_of_lt_of_le made first.size), first.ancestors id made]

theorem setSlots (s : Store) (id : ClassId) (table : SlotTable) :
    s.Extends (s.setSlots id table) :=
  ⟨Nat.le_of_eq (size_setSlots s id table).symm,
    fun other _ => ancestors_setSlots s id other table⟩

theorem newClass (s : Store) (parents : List ClassId) : s.Extends (s.newClass parents).2 := by
  constructor
  · simp [Store.newClass]
  · intro id made
    rw [classInfo_newClass_of_made made]

end Extends

end Store

/-- A step extends the store. -/
theorem Action.extends_after (action : Action α) (s : Store) : s.Extends (action.run.after s) := by
  cases action with
  | lookup scope name => exact (EvalM.after_ask _ s).symm ▸ .refl s
  | readSlot id name access => exact (EvalM.after_ask _ s).symm ▸ .refl s
  | define scope name value =>
    exact .of_classes_eq (EvalM.after_edit_eq Store.classes (fun _ _ => Store.classes_define) s)
  | assign scope name value =>
    exact .of_classes_eq (EvalM.after_edit_eq Store.classes (fun _ _ => Store.classes_assign) s)
  | newClass parents => exact .newClass s parents
  | defineSlot id | writeSlot id | chmodSlot id | finalise id =>
    simp only [run]
    rw [EvalM.after_editSlots]
    split
    · exact .setSlots s id _
    · exact .refl s
  | _ => exact .of_classes_eq rfl

/-- A run extends the store. -/
theorem Store.extends_of_reaches {s s' : Store} (run : s.Reaches s') : s.Extends s' := by
  induction run with
  | refl => exact .refl s
  | tail _ step extended =>
    obtain ⟨α, action, rfl⟩ := step
    exact extended.trans (action.extends_after _)

/-! ## Descent -/

namespace Store

/-- One class is above another, or above one that is above it. -/
def Descends (s : Store) : ClassId → ClassId → Prop :=
  Relation.TransGen fun id above => above ∈ (s.classInfo id).ancestors

/-- A class that something is above has been made. -/
theorem made_of_mem_ancestors {s : Store} {id above : ClassId}
    (h : above ∈ (s.classInfo id).ancestors) : id < s.classes.size := by
  rcases Nat.lt_or_ge id s.classes.size with made | absent
  · exact made
  · simp [classInfo, Array.getElem?_eq_none absent] at h

theorem Descends.of_extends {s s' : Store} (extended : s.Extends s') {id above : ClassId}
    (descends : s.Descends id above) : s'.Descends id above := by
  refine Relation.TransGen.mono (fun id above h => ?_) id above descends
  rw [extended.ancestors id (made_of_mem_ancestors h)]
  exact h

/-- A new class is below the classes of its lineage. -/
theorem descends_newClass {s : Store} {parents : List ClassId} {above : ClassId}
    (h : above ∈ s.lineage parents) :
    (s.newClass parents).2.Descends (s.newClass parents).1 above := by
  refine .single ?_
  simpa [newClass, classInfo] using h

end Store

end GuardedLisp
