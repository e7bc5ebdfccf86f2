import GuardedLisp.Proofs.Class.Descent
import GuardedLisp.Proofs.Discipline
import GuardedLisp.Proofs.Slots

/-!
# What values are made of

Evaluation makes few values that are neither pairs nor closures; all others come out of the term or
out of the store.  So a condition on such values that admits the few that are made goes on to hold
of all values.  This is a `Discipline`, whose worlds are the stores: a value that is admitted in a
store is admitted in every store that extends it.

## Main definitions

* `Vocabulary`: a condition on values that are no pairs and no closures
* `Vocabulary.Covers`, `Vocabulary.Holds`: a value, and a store, in which there are no others
* `Vocabulary.Runs`: a run that is given such values only
* `Vocabulary.Keeps`: a computation that is such a run and ends with such values
* `Vocabulary.discipline`: the discipline that a vocabulary is

## Main results

* `Vocabulary.holds_of_runs`: a store stays within a vocabulary
* `Vocabulary.keeps_eval`: so does evaluation
-/

namespace GuardedLisp

open Machine (act fail during)

/-- All parts of a value that are no pairs and no closures have a property. -/
def Value.Every (p : Value → Prop) : Value → Prop
  | .pair _ first rest => first.Every p ∧ rest.Every p
  | .closure _ _ _ body _ => body.Every p
  | v => p v

namespace Value.Every

variable {p q : Value → Prop}

theorem mono (weaker : ∀ v, p v → q v) {v : Value} (every : v.Every p) : v.Every q := by
  induction v with
  | pair address first rest ihFirst ihRest => exact ⟨ihFirst every.1, ihRest every.2⟩
  | closure address kind params body home ih => exact ih every
  | _ => exact weaker _ every

/-- The elements of a list have what the list has. -/
theorem elements {v : Value} {items : List Value} (every : v.Every p)
    (list : v.elements = .ok items) : ∀ item ∈ items, item.Every p :=
  Value.elements_all id every list

/-- A new list has what its elements have. -/
theorem list {items : List Value} (every : ∀ item ∈ items, item.Every p) (nil : p .nil)
    (next : Address) : ((Alloc.list items).run next).1.Every p := by
  unfold Alloc.list
  induction items with
  | nil => exact nil
  | cons item items ih =>
    rw [List.forall_mem_cons] at every
    rw [Alloc.chain_cons]
    exact ⟨every.1, ih every.2⟩

end Value.Every

/-! ## Steps -/

/-- A new class has been made. -/
theorem Store.made_newClass (s : Store) (parents : List ClassId) :
    (s.newClass parents).1 < (s.newClass parents).2.classes.size := by
  simp [newClass]

theorem Action.mem_operands_of_mem_value? {action : Action α} {value : Value}
    (writes : value ∈ action.value?) : value ∈ action.operands := by
  cases action with
  | define | assign | writeSlot =>
    obtain rfl := Option.some.inj writes
    simp [operands]
  | _ => cases writes

/-- A condition on values that are no pairs and no closures, which admits what evaluation makes and
which a value goes on to meet. -/
structure Vocabulary where
  allows : Store → Value → Prop
  nil (s : Store) : allows s .nil
  bool (s : Store) (b : Bool) : allows s (.bool b)
  integer (s : Store) (n : Int64) : allows s (.integer n)
  begin (s : Store) : allows s (.symbol .begin)
  lambda (s : Store) : allows s (.symbol .lambda)
  classObject {s : Store} {id : ClassId} : id < s.classes.size → allows s (.classObject id)
  extend {s s' : Store} {v : Value} : s.Extends s' → allows s v → allows s' v

namespace Vocabulary

variable (V : Vocabulary)

/-- A value has no parts outside a vocabulary. -/
def Covers (s : Store) (v : Value) : Prop := v.Every (V.allows s)

/-- No slot of a store has a value outside a vocabulary. -/
structure Holds (s : Store) : Prop where
  frames (id : FrameId) : (s.frame id).Every fun slot => ∀ v ∈ slot.value, V.Covers s v
  classes (id : ClassId) : (s.slots id).Every fun slot => ∀ v ∈ slot.value, V.Covers s v

/-- A step that is given values of a vocabulary. -/
def Step (s s' : Store) : Prop :=
  ∃ (α : Type) (action : Action α),
    (∀ v ∈ action.operands, V.Covers s v) ∧ action.run.after s = s'

/-- Such steps in a row. -/
abbrev Runs : Store → Store → Prop := Relation.ReflTransGen V.Step

variable {V} {s s' : Store}

theorem Covers.extend {v : Value} (extended : s.Extends s') (covers : V.Covers s v) :
    V.Covers s' v :=
  covers.mono fun _ => V.extend extended

theorem extends_of_step (step : V.Step s s') : s.Extends s' := by
  obtain ⟨α, action, -, rfl⟩ := step
  exact action.extends_after s

theorem extends_of_runs (run : V.Runs s s') : s.Extends s' := by
  induction run with
  | refl => exact .refl s
  | tail _ step extended => exact extended.trans (extends_of_step step)

theorem Holds.covers (holds : V.Holds s) : s.Holds (V.Covers s) := ⟨holds.frames, holds.classes⟩

/-- A step leaves a store within a vocabulary if it is given values of the vocabulary. -/
theorem holds_of_step (holds : V.Holds s) (step : V.Step s s') : V.Holds s' := by
  have extended := extends_of_step step
  obtain ⟨α, action, given, rfl⟩ := step
  have kept : (action.run.after s).Holds (V.Covers s) := holds.covers.after action fun v written =>
    given v (Action.mem_operands_of_mem_value? written)
  -- What the slots hold was covered in the store before, and so it is in the store after.
  have later := kept.mono fun v => Covers.extend extended
  exact ⟨later.frames, later.classes⟩

theorem holds_of_runs (holds : V.Holds s) (run : V.Runs s s') : V.Holds s' := by
  induction run with
  | refl => exact holds
  | tail _ step holds => exact holds_of_step holds step

/-- What a step gives is within a vocabulary if what it is given is. -/
theorem covers_of_act (holds : V.Holds s) {action : Action α}
    (given : ∀ v ∈ action.operands, V.Covers s v) {a : α} (ran : action.run.outcome s = .ok a) :
    ∀ v ∈ action.yields a, V.Covers (action.run.after s) v := by
  have extended := action.extends_after s
  cases action with
  | lookup scope name =>
    refine List.forall_mem_singleton.mpr (Covers.extend extended ?_)
    exact holds.covers.of_lookup (EvalM.outcome_ask _ s ▸ ran)
  | readSlot id name access =>
    refine List.forall_mem_singleton.mpr (Covers.extend extended ?_)
    exact holds.covers.of_get (EvalM.outcome_ask _ s ▸ ran)
  | newClass parents =>
    obtain rfl := Except.ok.inj ran
    exact List.forall_mem_singleton.mpr (V.classObject (Store.made_newClass s parents))
  | pair first rest =>
    obtain rfl := Except.ok.inj ran
    obtain ⟨first, given⟩ := List.forall_mem_cons.mp given
    refine List.forall_mem_singleton.mpr (Covers.extend extended ?_)
    exact ⟨first, List.forall_mem_singleton.mp given⟩
  | list items =>
    obtain rfl := Except.ok.inj ran
    refine List.forall_mem_singleton.mpr (Covers.extend extended ?_)
    exact Value.Every.list given (V.nil s) s.nextAddress
  | closure kind params body scope =>
    obtain rfl := Except.ok.inj ran
    refine List.forall_mem_singleton.mpr (Covers.extend extended ?_)
    exact given body (.head _)
  | _ => nofun

/-! ## Computations -/

variable (V) in
/-- Started in any store that extends `start` and is within a vocabulary, a computation is a run
that is given values of the vocabulary, and what it gives has a property in the store at its
end. -/
def Keeps (start : Store) (x : EvalM α) (good : Store → α → Prop) : Prop :=
  ∀ s, start.Extends s → V.Holds s →
    V.Runs s (x.after s) ∧ ∀ a, x.outcome s = .ok a → good (x.after s) a

variable {start : Store}

theorem Keeps.weaken {x : EvalM α} {good fair : Store → α → Prop} (keeps : V.Keeps start x good)
    (weaker : ∀ s a, good s a → fair s a) : V.Keeps start x fair := by
  intro s extended holds
  obtain ⟨run, has⟩ := keeps s extended holds
  exact ⟨run, fun a ran => weaker _ a (has a ran)⟩

theorem Keeps.extend {x : EvalM α} {good : Store → α → Prop} (keeps : V.Keeps start x good)
    (extended : start.Extends s) : V.Keeps s x good :=
  fun s' further => keeps s' (extended.trans further)

theorem keeps_pure {a : α} {good : Store → α → Prop} (has : ∀ s, start.Extends s → good s a) :
    V.Keeps start (pure a) good := by
  intro s extended _
  refine ⟨.refl, fun b ran => ?_⟩
  obtain rfl := Except.ok.inj ran
  exact has s extended

theorem keeps_fail (e : Error) (good : Store → α → Prop) :
    V.Keeps start (fail e : EvalM α) good :=
  fun _ _ _ => ⟨.refl, nofun⟩

theorem keeps_bind {x : EvalM α} {f : α → EvalM β} {good : Store → α → Prop}
    {fair : Store → β → Prop} (first : V.Keeps start x good)
    (rest : ∀ s a, start.Extends s → good s a → V.Keeps s (f a) fair) :
    V.Keeps start (x >>= f) fair := by
  intro s extended holds
  obtain ⟨run, has⟩ := first s extended holds
  have further := extended.trans (extends_of_runs run)
  rw [EvalM.after_bind, EvalM.outcome_bind]
  split
  · next a ran =>
    obtain ⟨later, found⟩ := rest _ a further (has a ran) _ (.refl _) (holds_of_runs holds run)
    exact ⟨run.trans later, found⟩
  · refine ⟨run, fun b ran => ?_⟩
    cases ran

theorem keeps_during (application : Value) {x : EvalM α} {good : Store → α → Prop}
    (keeps : V.Keeps start x good) : V.Keeps start (during application x) good := by
  intro s extended holds
  obtain ⟨run, has⟩ := keeps s extended holds
  have ended : EvalM.after (during application x) s = x.after s :=
    EvalM.after_during application x s
  rw [ended]
  exact ⟨run, fun a ran => has a (EvalM.outcome_during_eq_ok.mp ran)⟩

theorem keeps_act {action : Action α} (given : ∀ v ∈ action.operands, V.Covers start v) :
    V.Keeps start (act action) fun s a => ∀ v ∈ action.yields a, V.Covers s v := by
  intro s extended holds
  have given : ∀ v ∈ action.operands, V.Covers s v := fun v mem => (given v mem).extend extended
  exact ⟨.single ⟨α, action, given, rfl⟩, fun a => covers_of_act holds given⟩

variable (V) in
/-- What a vocabulary says of values and of computations is a discipline. -/
def discipline : Discipline EvalM where
  World := Store
  Later := Store.Extends
  Covers := V.Covers
  Keeps := V.Keeps
  later_trans := Store.Extends.trans
  covers_later := Covers.extend
  covers_pair covered := covered
  covers_body covered := covered
  covers_nil := V.nil
  covers_bool := V.bool
  covers_integer := V.integer
  covers_begin := V.begin
  covers_lambda := V.lambda
  keeps_pure := keeps_pure
  keeps_fail _ := keeps_fail _ _
  keeps_bind := keeps_bind
  keeps_calling keeps := keeps
  keeps_act given := keeps_act fun v mem => given v (Action.mem_inputs_of_mem_operands mem)
  keeps_weaken := Keeps.weaken
  keeps_later extended keeps := keeps.extend extended

theorem names_discipline : V.discipline.Names := fun _ => keeps_during _

/-! ## All levels -/

variable (V) in
/-- A level whose evaluators stay within a vocabulary. -/
structure Level (inner : Level EvalM) : Prop where
  eval {start : Store} (grants : Grants) (scope : Scope) {term : Value} :
    V.Covers start term → V.Keeps start (inner.eval grants scope term) V.Covers
  expand {start : Store} (grants : Grants) (scope : Scope) {template : Value} :
    V.Covers start template → V.Keeps start (inner.expand grants scope template) V.Covers

theorem level_evalAt (limit left : Nat) : V.Level ⟨evalAt limit left, expandAt limit left⟩ :=
  have level := Discipline.level_evalAt V.names_discipline limit left
  ⟨level.eval, level.expand⟩

/-- **Evaluation stays within a vocabulary**: if a term and a store do, evaluation is a run that is
given values of the vocabulary, and so is the value that it may end with. -/
theorem keeps_eval (ctx : Context) (scope : Scope) {term : Value} (given : V.Covers start term) :
    V.Keeps start (ctx.eval scope term) V.Covers :=
  (level_evalAt ctx.limit (ctx.limit - ctx.depth)).eval ctx.grants scope given

end Vocabulary

end GuardedLisp
