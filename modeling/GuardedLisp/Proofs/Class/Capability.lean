import GuardedLisp.Proofs.Class.Sealed

/-!
# Grants are capabilities

A grant only ever opens something.  What may be done from outside a class may be done from inside,
and no form catches the error of an access that is refused.  So an evaluation that succeeds does so
in the same way under more grants.  Which of the grants is the innermost, and how often a class has
one, does not matter at all.

## Main definitions

* `EvalM.SucceedsAs`: a computation that succeeds wherever another one does, in the same way

## Main results

* `SlotTable.get_inside_of_outside`, `SlotTable.set_inside_of_outside`: what is allowed outside is
  allowed inside
* `Context.eval_grants`: evaluation depends on the set of the grants, and success is kept by more
-/

namespace GuardedLisp

/-! ## Access from inside -/

theorem Permission.allowsRead_inside_of_outside {p : Permission}
    (allowed : p.allowsRead .outside = true) : p.allowsRead .inside = true := by
  unfold allowsRead at allowed ⊢
  grind

theorem Permission.allowsWrite_inside_of_outside {p : Permission}
    (allowed : p.allowsWrite .outside = true) : p.allowsWrite .inside = true := by
  unfold allowsWrite at allowed ⊢
  grind

namespace SlotTable

variable {table : SlotTable} {name : Symbol}

/-- What is read from outside is read from inside. -/
theorem get_inside_of_outside {v : Value} (h : table.get name .outside = .ok v) :
    table.get name .inside = .ok v := by
  unfold get at h ⊢
  split at h
  · cases h
  · next slot found =>
    split at h
    · cases h
    · next allowed =>
      have inside : slot.permission.allowsRead .inside = true :=
        Permission.allowsRead_inside_of_outside (by simpa using allowed)
      simp only [inside, Bool.not_true]
      exact h

/-- What is written from outside is written from inside. -/
theorem set_inside_of_outside {value : Value} {table' : SlotTable}
    (h : table.set name value .outside = .ok table') :
    table.set name value .inside = .ok table' := by
  unfold set at h ⊢
  split at h
  · cases h
  · next slot found =>
    split at h
    · cases h
    · next allowed =>
      have inside : slot.permission.allowsWrite .inside = true :=
        Permission.allowsWrite_inside_of_outside (by simpa using allowed)
      simp only [inside, Bool.not_true]
      exact h

end SlotTable

namespace Grants

variable {g h : Grants}

/-- Grants for the same classes give the same access. -/
theorem access_congr (same : ∀ id, id ∈ g ↔ id ∈ h) (id : ClassId) : g.access id = h.access id := by
  unfold access
  simp only [same]

/-- More grants give the same access, or access from inside in place of access from outside. -/
theorem access_of_subset (more : g ⊆ h) (id : ClassId) :
    h.access id = g.access id ∨ g.access id = .outside ∧ h.access id = .inside := by
  unfold access
  by_cases granted : id ∈ g
  · rw [if_pos granted, if_pos (more granted)]
    exact .inl rfl
  · rw [if_neg granted]
    by_cases opened : id ∈ h
    · rw [if_pos opened]
      exact .inr ⟨rfl, rfl⟩
    · rw [if_neg opened]
      exact .inl rfl

theorem mem_cons_congr (same : ∀ id, id ∈ g ↔ id ∈ h) (id other : ClassId) :
    other ∈ id :: g ↔ other ∈ id :: h := by
  rw [List.mem_cons, List.mem_cons, same]

end Grants

/-! ## Order and repetition -/

/-- Computations that are one, compared under grants for the same classes. -/
def Simulation.regranting : Simulation EvalM EvalM where
  under g h := ∀ id, id ∈ g ↔ id ∈ h
  rel x y := x = y
  rel_pure _ := rfl
  rel_fail _ := rfl
  rel_bind first rest := by rw [first, funext rest]
  rel_during _ _ _ same := by rw [same]
  rel_calling _ _ _ _ _ same := same
  rel_act _ _ := rfl
  rel_write id _ _ under := by rw [Grants.access_congr under id]
  rel_read id _ _ _ under rest := by
    rw [Grants.access_congr under id, funext (rest (Grants.mem_cons_congr under id))]

/-! ## More grants -/

/-- The second computation succeeds wherever the first does, with the same value and store. -/
def EvalM.SucceedsAs (x y : EvalM α) : Prop := ∀ s a s', x s = .ok a s' → y s = .ok a s'

namespace EvalM.SucceedsAs

theorem bind {x y : EvalM α} {f g : α → EvalM β} (first : x.SucceedsAs y)
    (rest : ∀ a, (f a).SucceedsAs (g a)) : SucceedsAs (x >>= f) (y >>= g) := by
  intro s b s' success
  obtain ⟨a, between, began, ended⟩ := exists_of_bind_eq_ok success
  rw [bind_of_ok (first s a between began)]
  exact rest a between b s' ended

theorem during (application : Value) {x y : EvalM α} (same : x.SucceedsAs y) :
    (x.during application).SucceedsAs (y.during application) := by
  intro s a s' success
  simp only [EvalM.during, same s a s' (of_during_eq_ok success)]

theorem ask {query query' : Store → Except Error α}
    (same : ∀ s a, query s = .ok a → query' s = .ok a) :
    (EvalM.ask query).SucceedsAs (EvalM.ask query') := by
  intro s a s' success
  simp only [EvalM.ask] at success ⊢
  cases outcome : query s with
  | ok b =>
    rw [outcome] at success
    rw [same s b outcome]
    exact success
  | error e =>
    rw [outcome] at success
    cases success

theorem editSlots (id : ClassId) {change change' : SlotTable → Except Error SlotTable}
    (same : ∀ table table', change table = .ok table' → change' table = .ok table') :
    (EvalM.editSlots id change).SucceedsAs (EvalM.editSlots id change') := by
  intro s a s' success
  simp only [EvalM.editSlots, EvalM.edit] at success ⊢
  cases outcome : change (s.slots id) with
  | ok table =>
    rw [outcome] at success
    rw [same _ table outcome]
    exact success
  | error e =>
    rw [outcome] at success
    cases success

variable {g h : Grants} (more : g ⊆ h) (id : ClassId) (name : Symbol)

include more

theorem getSlot : (EvalM.getSlot id name (g.access id)).SucceedsAs
    (EvalM.getSlot id name (h.access id)) := by
  refine ask fun s v success => ?_
  rcases Grants.access_of_subset more id with same | ⟨outside, inside⟩
  · rw [same]
    exact success
  · rw [outside] at success
    rw [inside]
    exact SlotTable.get_inside_of_outside success

theorem writeSlot (value : Value) :
    (Action.run (.writeSlot id name value (g.access id))).SucceedsAs
      (Action.run (.writeSlot id name value (h.access id))) := by
  simp only [Action.run]
  refine editSlots id fun table table' success => ?_
  rcases Grants.access_of_subset more id with same | ⟨outside, inside⟩
  · rw [same]
    exact success
  · rw [outside] at success
    rw [inside]
    exact SlotTable.set_inside_of_outside success

end EvalM.SucceedsAs

/-- Computations that succeed wherever others do, compared under grants and more grants. -/
def Simulation.widening : Simulation EvalM EvalM where
  under g h := g ⊆ h
  rel := EvalM.SucceedsAs
  rel_pure _ _ _ _ success := success
  rel_fail _ _ _ _ failure := nomatch failure
  rel_bind := .bind
  rel_during := .during
  rel_calling _ _ _ _ _ same := same
  rel_act _ _ _ _ _ success := success
  rel_write id name value more := .writeSlot more id name value
  rel_read id name _ _ more rest :=
    .bind (.getSlot more id name) (rest (List.cons_subset_cons id more))

/-- **Grants are a monotone set of capabilities.**  Evaluation ends in the same way, in the same
store and with the same output, under all grants for the same classes, whatever their order and
number.  If it succeeds, it does so in the same way under more grants. -/
theorem Context.eval_grants :
    (∀ (ctx : Context) (grants : Grants) (scope : Scope) (term : Value) (s : Store),
      (∀ id, id ∈ ctx.grants ↔ id ∈ grants) →
        ({ ctx with grants }.eval scope term : EvalM Value) s =
          (ctx.eval scope term : EvalM Value) s) ∧
    (∀ (ctx : Context) (grants : Grants) (scope : Scope) (term : Value) (s s' : Store) (v : Value),
      ctx.grants ⊆ grants → (ctx.eval scope term : EvalM Value) s = .ok v s' →
        ({ ctx with grants }.eval scope term : EvalM Value) s = .ok v s') := by
  constructor
  · intro ctx grants scope term s same
    have levels := Simulation.regranting.levels_evalAt ctx.limit (ctx.limit - ctx.depth)
    exact congrFun (levels.eval scope term same).symm s
  · intro ctx grants scope term s s' v more success
    have levels := Simulation.widening.levels_evalAt ctx.limit (ctx.limit - ctx.depth)
    exact levels.eval scope term more s v s' success

/-- The term `(vault secret)`. -/
def askVault : Value := .applied (.classObject 1) [.symbol ⟨35, "secret"⟩]

theorem eval_grants_askVault :
    (Context.eval { grants := [0, 1, 1] } globalScope askVault : EvalM Value) (vault 41) =
      (Context.eval { grants := [1, 0] } globalScope askVault : EvalM Value) (vault 41) ∧
    (Context.eval { grants := [1] } globalScope askVault : EvalM Value) (vault 41) =
      .ok (.integer 41) (vault 41) ∧
    (Context.eval { grants := [0, 1] } globalScope askVault : EvalM Value) (vault 41) =
      .ok (.integer 41) (vault 41) := by
  have success : (Context.eval { grants := [1] } globalScope askVault : EvalM Value) (vault 41) =
      .ok (.integer 41) (vault 41) := by rfl
  obtain ⟨reorder, widen⟩ := Context.eval_grants
  refine ⟨?_, success, ?_⟩
  · refine reorder { grants := [1, 0] } [0, 1, 1] globalScope askVault (vault 41) ?_
    intro id
    show id ∈ [1, 0] ↔ id ∈ [0, 1, 1]
    simp [or_comm]
  · exact widen { grants := [1] } [0, 1] globalScope askVault (vault 41) (vault 41) _
      (by decide) success

end GuardedLisp
