import GuardedLisp.Eval.Basic

/-!
# Simulations

What two machines do with one term is compared step by step.  A `Simulation` relates computations
of two machines, and is kept by everything that evaluation is made of.
`Simulation.levels_evalAt` says that evaluation on the two machines is then related as well, and is
the only induction over the evaluator: a property of all evaluations is the simulation that states
it.

The grants of the two sides may differ.  They matter to the steps that read and write slots, and
reading is the step that opens a new grant: what follows it is compared under the new grants only
if the class may have one.

## Main definitions

* `Simulation`: related grants, related computations, and what keeps them
* `Simulation.Levels`: two levels whose evaluators are related

## Main results

* `Simulation.rel_apply`, `Simulation.rel_evalTerm`, `Simulation.rel_expandChain`: what one level
  makes of related levels is related
* `Simulation.levels_evalAt`: evaluation and expansion are related at every level
* `Simulation.rel_eval`: so is evaluation in a context
-/

namespace GuardedLisp

open Machine (act fail ofExcept bindParams during calling)

/-- Whether a step depends on the grants. -/
def Action.isGuarded : Action α → Bool
  | .readSlot .. | .writeSlot .. => true
  | _ => false

/-- Related computations of two machines. -/
structure Simulation (m n : Type → Type) [Machine m] [Machine n] where
  /-- The grants under which computations are compared. -/
  under : Grants → Grants → Prop
  /-- The computations that are related. -/
  rel {α : Type} : m α → n α → Prop
  rel_pure {α : Type} (a : α) : rel (pure a) (pure a)
  rel_fail {α : Type} (e : Error) : rel (fail e : m α) (fail e)
  rel_bind {α β : Type} {x : m α} {y : n α} {f : α → m β} {g : α → n β} :
    rel x y → (∀ a, rel (f a) (g a)) → rel (x >>= f) (y >>= g)
  rel_during {α : Type} (application : Value) {x : m α} {y : n α} :
    rel x y → rel (during application x) (during application y)
  rel_calling {α : Type} {g h : Grants} (callable : Value) (args : List Value) {x : m α}
    {y : n α} : under g h → rel x y →
      rel (calling ⟨g, callable, args⟩ x) (calling ⟨h, callable, args⟩ y)
  rel_act {α : Type} (action : Action α) :
    action.isGuarded = false → rel (act action) (act action)
  rel_write {g h : Grants} (id : ClassId) (name : Symbol) (value : Value) :
    under g h →
      rel (act (.writeSlot id name value (g.access id)))
        (act (.writeSlot id name value (h.access id)))
  rel_read {β : Type} {g h : Grants} (id : ClassId) (name : Symbol) {x : Value → m β}
    {y : Value → n β} :
    under g h → (under (id :: g) (id :: h) → ∀ v, rel (x v) (y v)) →
      rel (act (.readSlot id name (g.access id)) >>= x)
        (act (.readSlot id name (h.access id)) >>= y)

namespace Simulation

variable {m n : Type → Type} [Machine m] [Machine n] (R : Simulation m n)

/-! ## Steps put together -/

theorem rel_ofExcept (result : Except Error α) : R.rel (ofExcept result) (ofExcept result) := by
  cases result with
  | ok a => exact R.rel_pure a
  | error e => exact R.rel_fail e

theorem rel_mapM_loop {f : α → m β} {g : α → n β} (h : ∀ a, R.rel (f a) (g a)) (items : List α)
    (done : List β) : R.rel (List.mapM.loop f items done) (List.mapM.loop g items done) := by
  induction items generalizing done with
  | nil => exact R.rel_pure _
  | cons item items ih => exact R.rel_bind (h item) fun b => ih (b :: done)

theorem rel_mapM {f : α → m β} {g : α → n β} (h : ∀ a, R.rel (f a) (g a)) (items : List α) :
    R.rel (items.mapM f) (items.mapM g) :=
  R.rel_mapM_loop h items []

theorem rel_forM {f : α → m PUnit} {g : α → n PUnit} (h : ∀ a, R.rel (f a) (g a))
    (items : List α) : R.rel (items.forM f) (items.forM g) := by
  induction items with
  | nil => exact R.rel_pure _
  | cons item items ih => exact R.rel_bind (h item) fun _ => ih

theorem rel_bindParams (params : Params) (args : List Value) (scope : Scope) :
    R.rel (bindParams params args scope) (bindParams params args scope) := by
  unfold bindParams
  refine R.rel_bind (R.rel_ofExcept _) fun _ => ?_
  refine R.rel_bind (R.rel_forM (fun _ => R.rel_act _ rfl) _) fun _ => ?_
  cases params.rest with
  | none => exact R.rel_pure _
  | some name => exact R.rel_bind (R.rel_act _ rfl) fun _ => R.rel_act _ rfl

theorem rel_primitive (op : Primitive) (args : List Value) :
    R.rel (op.run args) (op.run args) := by
  unfold Primitive.run
  split
  · exact R.rel_bind (R.rel_act _ rfl) fun _ => R.rel_pure _
  · exact R.rel_bind (R.rel_act _ rfl) fun _ => R.rel_pure _
  · exact R.rel_act _ rfl
  · exact R.rel_ofExcept _
  · exact R.rel_pure _
  · exact R.rel_pure _
  · refine R.rel_bind (R.rel_ofExcept _) fun _ => R.rel_bind (R.rel_ofExcept _) fun _ => ?_
    exact R.rel_bind (R.rel_ofExcept _) fun _ => R.rel_pure _
  · refine R.rel_bind (R.rel_ofExcept _) fun _ => R.rel_bind (R.rel_ofExcept _) fun _ => ?_
    exact R.rel_pure _
  · exact R.rel_fail _

theorem rel_makeClosure (scope : Scope) (kind : ClosureKind) (args : List Value) :
    R.rel (makeClosure scope kind args) (makeClosure scope kind args) := by
  unfold makeClosure
  split
  · refine R.rel_bind (R.rel_ofExcept _) fun _ => ?_
    exact R.rel_bind (R.rel_act _ rfl) fun _ => R.rel_act _ rfl
  · exact R.rel_fail _

/-! ## One level -/

/-- Two levels whose evaluators are related. -/
structure Levels (inner : Level m) (other : Level n) : Prop where
  eval {g h : Grants} (scope : Scope) (term : Value) :
    R.under g h → R.rel (inner.eval g scope term) (other.eval h scope term)
  expand {g h : Grants} (scope : Scope) (template : Value) :
    R.under g h → R.rel (inner.expand g scope template) (other.expand h scope template)

section Levels

variable {R} {inner : Level m} {other : Level n} (levels : R.Levels inner other)
  {g h : Grants} (under : R.under g h) (scope : Scope)

include levels under

theorem rel_evalAll (terms : List Value) :
    R.rel (inner.evalAll g scope terms) (other.evalAll h scope terms) :=
  R.rel_mapM (fun term => levels.eval scope term under) terms

theorem rel_evalLast (term : Value) (terms : List Value) :
    R.rel (inner.evalLast g scope term terms) (other.evalLast h scope term terms) := by
  induction terms generalizing term with
  | nil => exact levels.eval scope term under
  | cons next terms ih => exact R.rel_bind (levels.eval scope term under) fun _ => ih next

theorem rel_evalClass (term : Value) :
    R.rel (inner.evalClass g scope term) (other.evalClass h scope term) := by
  unfold Level.evalClass
  refine R.rel_bind (levels.eval scope term under) fun v => ?_
  split
  · exact R.rel_pure _
  · exact R.rel_fail _

theorem rel_define (args : List Value) :
    R.rel (inner.define g scope args) (other.define h scope args) := by
  unfold Level.define
  split
  · refine R.rel_bind (levels.eval scope _ under) fun _ => ?_
    exact R.rel_bind (R.rel_act _ rfl) fun _ => R.rel_pure _
  · -- a signature with a body, which is made into a function first
    refine R.rel_bind (R.rel_act _ rfl) fun _ => R.rel_bind (levels.eval scope _ under) fun _ => ?_
    exact R.rel_bind (R.rel_act _ rfl) fun _ => R.rel_pure _
  · exact R.rel_fail _
  · exact R.rel_fail _
  · exact R.rel_fail _

theorem rel_assign (args : List Value) :
    R.rel (inner.assign g scope args) (other.assign h scope args) := by
  unfold Level.assign
  split
  · refine R.rel_bind (levels.eval scope _ under) fun _ => ?_
    exact R.rel_bind (R.rel_act _ rfl) fun _ => R.rel_pure _
  · exact R.rel_fail _
  · exact R.rel_fail _

theorem rel_branch (args : List Value) :
    R.rel (inner.branch g scope args) (other.branch h scope args) := by
  unfold Level.branch
  split
  · refine R.rel_bind (levels.eval scope _ under) fun condition => ?_
    split
    · exact levels.eval scope _ under
    · exact R.rel_pure _
  · refine R.rel_bind (levels.eval scope _ under) fun condition => ?_
    split
    · exact levels.eval scope _ under
    · exact levels.eval scope _ under
  · exact R.rel_fail _

theorem rel_newClass (args : List Value) :
    R.rel (inner.newClass g scope args) (other.newClass h scope args) := by
  unfold Level.newClass
  refine R.rel_bind (R.rel_mapM (rel_evalClass levels under scope) args) fun _ => ?_
  exact R.rel_bind (R.rel_act _ rfl) fun _ => R.rel_pure _

theorem rel_classDefine (args : List Value) :
    R.rel (inner.classDefine g scope args) (other.classDefine h scope args) := by
  unfold Level.classDefine
  split
  · refine R.rel_bind (rel_evalClass levels under scope _) fun _ => ?_
    refine R.rel_bind (R.rel_ofExcept _) fun _ => ?_
    exact R.rel_bind (R.rel_act _ rfl) fun _ => R.rel_pure _
  · refine R.rel_bind (rel_evalClass levels under scope _) fun _ => ?_
    refine R.rel_bind (R.rel_ofExcept _) fun _ => R.rel_bind (R.rel_ofExcept _) fun _ => ?_
    exact R.rel_bind (R.rel_act _ rfl) fun _ => R.rel_pure _
  · exact R.rel_fail _

theorem rel_classSet (args : List Value) :
    R.rel (inner.classSet g scope args) (other.classSet h scope args) := by
  unfold Level.classSet
  split
  · refine R.rel_bind (rel_evalClass levels under scope _) fun id => ?_
    refine R.rel_bind (R.rel_ofExcept _) fun name => ?_
    refine R.rel_bind (levels.eval scope _ under) fun value => ?_
    -- the one form whose step depends on the grants
    exact R.rel_bind (R.rel_write id name value under) fun _ => R.rel_pure _
  · exact R.rel_fail _

theorem rel_classChmod (args : List Value) :
    R.rel (inner.classChmod g scope args) (other.classChmod h scope args) := by
  unfold Level.classChmod
  split
  · refine R.rel_bind (rel_evalClass levels under scope _) fun _ => ?_
    refine R.rel_bind (R.rel_ofExcept _) fun _ => R.rel_bind (R.rel_ofExcept _) fun _ => ?_
    exact R.rel_bind (R.rel_act _ rfl) fun _ => R.rel_pure _
  · exact R.rel_fail _

theorem rel_classFinalize (args : List Value) :
    R.rel (inner.classFinalize g scope args) (other.classFinalize h scope args) := by
  unfold Level.classFinalize
  split
  · refine R.rel_bind (rel_evalClass levels under scope _) fun _ => ?_
    exact R.rel_bind (R.rel_act _ rfl) fun _ => R.rel_pure _
  · exact R.rel_fail _

theorem rel_applyForm (form : SpecialForm) (args : List Value) :
    R.rel (inner.applyForm g scope form args) (other.applyForm h scope form args) := by
  cases form with
  | quote =>
    simp only [Level.applyForm]
    split
    · exact R.rel_pure _
    · exact R.rel_fail _
  | assign => exact rel_assign levels under scope args
  | define => exact rel_define levels under scope args
  | branch => exact rel_branch levels under scope args
  | lambda => exact R.rel_makeClosure scope .function args
  | begin =>
    cases args with
    | nil => exact R.rel_fail _
    | cons term terms => exact rel_evalLast levels under scope term terms
  | newClass => exact rel_newClass levels under scope args
  | classDefine => exact rel_classDefine levels under scope args
  | classSet => exact rel_classSet levels under scope args
  | classChmod => exact rel_classChmod levels under scope args
  | classFinalize => exact rel_classFinalize levels under scope args
  | transformer => exact R.rel_makeClosure scope .transformer args
  | quasiquote =>
    simp only [Level.applyForm]
    split
    · exact levels.expand scope _ under
    · exact R.rel_fail _
  | unquote => exact R.rel_fail _

theorem rel_unquote (part operands : Value) :
    R.rel (inner.unquote g scope part operands) (other.unquote h scope part operands) := by
  unfold Level.unquote
  refine R.rel_bind (R.rel_ofExcept _) fun terms => ?_
  split
  · exact levels.eval scope _ under
  · exact R.rel_fail _

/-- Expansion of a chain walks the chain, so this is an induction on the template. -/
theorem rel_expandChain (template : Value) :
    R.rel (inner.expandChain g scope template) (other.expandChain h scope template) := by
  induction template with
  | pair address first rest _ ih =>
    simp only [Level.expandChain]
    split
    · exact rel_unquote levels under scope _ _
    · exact R.rel_pure _
    · exact R.rel_fail _
    · -- the first element takes a level, the rest of the chain does not
      refine R.rel_bind (levels.expand scope first under) fun _ => ?_
      exact R.rel_bind ih fun _ => R.rel_act _ rfl
  | _ => exact R.rel_pure _

theorem rel_applyBuiltin (op : Builtin) (args : List Value) :
    R.rel (inner.applyBuiltin g scope op args) (other.applyBuiltin h scope op args) := by
  cases op with
  | form form => exact rel_applyForm levels under scope form args
  | primitive op =>
    refine R.rel_bind (rel_evalAll levels under scope args) fun values => ?_
    exact R.rel_bind (R.rel_ofExcept _) fun _ => R.rel_primitive op values

theorem rel_applyFunction (params : Params) (body : Value) (home : Scope) (args : List Value) :
    R.rel (inner.applyFunction g scope params body home args)
      (other.applyFunction h scope params body home args) := by
  unfold Level.applyFunction
  refine R.rel_bind (rel_evalAll levels under scope args) fun values => ?_
  refine R.rel_bind (R.rel_act _ rfl) fun frame => ?_
  exact R.rel_bind (R.rel_bindParams params values frame) fun _ => levels.eval frame body under

theorem rel_applyTransformer (params : Params) (body : Value) (home : Scope) (args : List Value) :
    R.rel (inner.applyTransformer g scope params body home args)
      (other.applyTransformer h scope params body home args) := by
  unfold Level.applyTransformer
  refine R.rel_bind (R.rel_act _ rfl) fun frame => ?_
  refine R.rel_bind (R.rel_bindParams params args frame) fun _ => ?_
  exact R.rel_bind (levels.eval frame body under) fun expansion => levels.eval scope expansion under

theorem rel_selectSlot (selector : Value) :
    R.rel (inner.selectSlot g scope selector) (other.selectSlot h scope selector) := by
  unfold Level.selectSlot
  split
  · exact R.rel_pure _
  · refine R.rel_bind (levels.eval scope selector under) fun v => ?_
    split
    · exact R.rel_pure _
    · exact R.rel_fail _

omit under in
/-- Calls are related under all related grants.  A chain of selectors is an induction on the
arguments: every selector opens a grant for the arguments after it. -/
theorem rel_apply {g h : Grants} (under : R.under g h) (scope : Scope) (callable : Value)
    (args : List Value) :
    R.rel (inner.apply g scope callable args) (other.apply h scope callable args) := by
  induction args generalizing g h scope callable with
  | nil =>
    unfold Level.apply
    refine R.rel_calling callable [] under ?_
    split
    · exact rel_applyBuiltin levels under scope _ _
    · exact rel_applyFunction levels under scope _ _ _ _
    · exact rel_applyTransformer levels under scope _ _ _ _
    · exact R.rel_fail _
    · contradiction
    · exact R.rel_fail _
  | cons selector args ih =>
    unfold Level.apply
    refine R.rel_calling callable (selector :: args) under ?_
    split
    · exact rel_applyBuiltin levels under scope _ _
    · exact rel_applyFunction levels under scope _ _ _ _
    · exact rel_applyTransformer levels under scope _ _ _ _
    · contradiction
    · next id equal =>
      obtain ⟨rfl, rfl⟩ := List.cons.inj equal
      refine R.rel_bind (rel_selectSlot levels under scope selector) fun name => ?_
      -- Past the read, everything runs under the grant for the class.
      refine R.rel_read id name under fun granted v => ?_
      split
      · refine R.rel_bind (R.rel_act _ rfl) fun frame => ?_
        exact R.rel_bind (R.rel_act _ rfl) fun _ => ih granted frame v
      · split
        · exact R.rel_pure _
        · exact R.rel_fail _
    · exact R.rel_fail _

omit under in
theorem rel_evalTerm {g h : Grants} (under : R.under g h) (scope : Scope) (term : Value) :
    R.rel (inner.evalTerm g scope term) (other.evalTerm h scope term) := by
  cases term with
  | symbol name => exact R.rel_act _ rfl
  | pair address first rest =>
    refine R.rel_bind (levels.eval scope first under) fun callable => ?_
    refine R.rel_bind (R.rel_ofExcept _) fun args => ?_
    exact R.rel_during _ (rel_apply levels under scope callable args)
  | _ => exact R.rel_pure _

end Levels

/-! ## All levels -/

/-- Evaluation and expansion are related at every level, so every level is related to itself. -/
theorem levels_evalAt (limit left : Nat) :
    R.Levels (⟨evalAt limit left, expandAt limit left⟩ : Level m)
      (⟨evalAt limit left, expandAt limit left⟩ : Level n) := by
  induction left with
  | zero =>
    constructor
    · intro g h scope term _
      exact R.rel_fail _
    · intro g h scope template _
      -- With no level left a template still expands to itself unless it is a pair.
      cases template with
      | pair address first rest => exact R.rel_fail _
      | _ => exact R.rel_pure _
  | succ left levels =>
    constructor
    · intro g h scope term under
      exact rel_evalTerm levels under scope term
    · intro g h scope template under
      exact rel_expandChain levels under scope template

/-- Evaluation in a context is related on the two machines. -/
theorem rel_eval (ctx : Context) (under : R.under ctx.grants ctx.grants) (scope : Scope)
    (term : Value) : R.rel (ctx.eval scope term) (ctx.eval scope term) :=
  (R.levels_evalAt ctx.limit (ctx.limit - ctx.depth)).eval scope term under

end Simulation

end GuardedLisp
