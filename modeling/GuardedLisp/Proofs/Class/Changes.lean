import GuardedLisp.Proofs.Closures
import GuardedLisp.Proofs.Reachable

/-!
# The forms that change classes

Four forms change the slots of a class.  Each of them evaluates some of its terms, and then, if
nothing is wrong with the others, takes one step.  The terms that are evaluated may do anything,
also to the same class.  After them the form itself is atomic: what fails has changed nothing, and
what succeeds has changed one class, in one slot or in whether it is finalised.

## Main definitions

* `SpecialForm.changesClass`: the four forms
* `SpecialForm.operands`, `Context.evalOperands`: the terms that a form evaluates, in order
* `SpecialForm.step`: the step that a form takes in the end
* `SpecialForm.Alters`: what this step does to the slots of the class

## Main results

* `Context.apply_class_form`: a form evaluates its operands, and then takes one step
* `SpecialForm.alters_of_step`: the step changes one class in the way of the form
* `Context.class_form`: what has changed, and what has not, when a form has been evaluated
-/

namespace GuardedLisp

open Machine (act fail)

/-! ## Operands and steps -/

namespace SpecialForm

/-- Whether a form changes the slots of a class. -/
def changesClass : SpecialForm → Bool
  | classDefine | classSet | classChmod | classFinalize => true
  | _ => false

/-- The terms that such a form evaluates, of which the first has to stand for a class.  Terms in the
wrong number are not evaluated at all, and no value is evaluated for what is no name of a slot. -/
def operands (form : SpecialForm) (args : List Value) : List Value :=
  match form, args with
  | classDefine, [target, _] | classDefine, [target, _, _] => [target]
  | classSet, [target, .symbol _, term] => [target, term]
  | classSet, [target, _, _] => [target]
  | classChmod, target :: _ :: _ => [target]
  | classFinalize, [target] => [target]
  | _, _ => []

/-- The step that such a form takes once its operands have their values. -/
def step (access : ClassId → Access) (form : SpecialForm) (args values : List Value) :
    Except Error (Action Unit) :=
  match form, args, values with
  | classDefine, [_, name], [.classObject id] => do
    return .defineSlot id (← LiteralRole.slotName.read name) none
  | classDefine, [_, name, datatype], [.classObject id] => do
    let name ← LiteralRole.slotName.read name
    return .defineSlot id name (some (← Datatype.ofTerm datatype))
  | classDefine, args, _ => .error (.arity (.between 2 3) args.length none)
  | classSet, [_, .symbol name, _], [.classObject id, value] =>
    return .writeSlot id name value (access id)
  | classSet, [_, name, _], _ => .error (.form (.literal .slotName name.text))
  | classSet, args, _ => .error (.arity (.exactly 3) args.length none)
  | classChmod, _ :: name :: flags, [.classObject id] => do
    let name ← LiteralRole.slotName.read name
    return .chmodSlot id name (← flags.mapM PermissionFlag.ofTerm)
  | classChmod, args, _ => .error (.arity (.atLeast 2) args.length none)
  | classFinalize, [_], [.classObject id] => return .finalise id
  | _, args, _ => .error (.arity (.exactly 1) args.length none)

end SpecialForm

/-- Evaluates the operands of a form that changes a class. -/
def Context.evalOperands (ctx : Context) (scope : Scope) : List Value → EvalM (List Value)
  | [] => pure []
  | target :: terms => do
    let id ← ctx.level.evalClass ctx.grants scope target
    let values ← ctx.evalAll scope terms
    return .classObject id :: values

theorem EvalM.ofExcept_bind (result : Except Error α) (f : α → Except Error β) :
    (Machine.ofExcept (result >>= f) : EvalM β) =
      Machine.ofExcept result >>= fun a => Machine.ofExcept (f a) := by
  cases result <;> rfl

theorem Context.evalOperands_singleton (ctx : Context) (scope : Scope) (target : Value) :
    ctx.evalOperands scope [target] =
      ctx.level.evalClass ctx.grants scope target >>= fun id => pure [.classObject id] := rfl

theorem Context.evalOperands_pair (ctx : Context) (scope : Scope) (target term : Value) :
    ctx.evalOperands scope [target, term] = do
      let id ← ctx.level.evalClass ctx.grants scope target
      let value ← ctx.eval scope term
      return [.classObject id, value] := by
  simp only [evalOperands, evalAll, Level.evalAll, List.mapM_cons, List.mapM_nil, bind_assoc,
    pure_bind]
  rfl

/-- **A form that changes a class** evaluates its operands, and then takes one step. -/
theorem Context.apply_class_form (ctx : Context) (scope : Scope) {form : SpecialForm}
    (changes : form.changesClass = true) (args : List Value) :
    (ctx.apply scope (.builtin (.form form)) args : EvalM Value) = do
      let values ← ctx.evalOperands scope (form.operands args)
      let action ← Machine.ofExcept (form.step ctx.access args values)
      act action
      return .nil := by
  rw [apply_eq_body]
  show (ctx.level : Level EvalM).applyForm ctx.grants scope form args = _
  cases form with
  | classDefine =>
    match args with
    | [target, name] | [target, name, datatype] =>
      simp only [SpecialForm.operands, evalOperands_singleton, bind_assoc, pure_bind]
      simp only [SpecialForm.step, EvalM.ofExcept_bind, bind_assoc]
      rfl
    | [] | [_] | _ :: _ :: _ :: _ :: _ => rfl
  | classSet =>
    match args with
    | [target, name, term] =>
      cases name with
      | symbol name =>
        simp only [SpecialForm.operands, evalOperands_pair, bind_assoc, pure_bind]
        rfl
      | _ =>
        simp only [SpecialForm.operands, evalOperands_singleton, bind_assoc, pure_bind]
        rfl
    | [] | [_] => rfl
    | [_, name] | _ :: name :: _ :: _ :: _ => cases name <;> rfl
  | classChmod =>
    match args with
    | target :: name :: flags =>
      simp only [SpecialForm.operands, evalOperands_singleton, bind_assoc, pure_bind]
      simp only [SpecialForm.step, EvalM.ofExcept_bind, bind_assoc]
      rfl
    | [] | [_] => rfl
  | classFinalize =>
    match args with
    | [target] =>
      simp only [SpecialForm.operands, evalOperands_singleton, bind_assoc, pure_bind]
      rfl
    | [] | _ :: _ :: _ => rfl
  | _ => cases changes

/-! ## What the step does -/

/-- Tables that agree but for what they have under one name. -/
structure SlotTable.AgreeBut (name : Symbol) (before after : SlotTable) : Prop where
  finalised : after.finalised = before.finalised
  others (other : Symbol) : other ≠ name → after.find? other = before.find? other

theorem SlotTable.agreeBut_insert (table : SlotTable) (name : Symbol) (slot : Slot) :
    AgreeBut name table (table.insert name slot) :=
  ⟨rfl, fun _ ne => find?_insert_of_ne ne table slot⟩

/-- What a form that changes a class does to the slots of the class.  Given are the terms of the
form and the values of its operands after the class. -/
inductive SpecialForm.Alters :
    SpecialForm → List Value → List Value → SlotTable → SlotTable → Prop
  | defined {target : Value} {name : Symbol} {before after : SlotTable} :
      before.find? name = none → after.find? name = some {} → before.AgreeBut name after →
      Alters .classDefine [target, .symbol name] [] before after
  | declared {target : Value} {name word : Symbol} {datatype : Datatype}
      {before after : SlotTable} :
      Datatype.ofName? word.name = some datatype →
      before.find? name = none → after.find? name = some { datatype := some datatype } →
      before.AgreeBut name after →
      Alters .classDefine [target, .symbol name, .symbol word] [] before after
  | written {target term value : Value} {name : Symbol} {slot : Slot}
      {before after : SlotTable} :
      before.find? name = some slot → after.find? name = some { slot with value := some value } →
      before.AgreeBut name after →
      Alters .classSet [target, .symbol name, term] [value] before after
  | permitted {target : Value} {name : Symbol} {terms : List Value} {flags : List PermissionFlag}
      {slot : Slot} {before after : SlotTable} :
      terms.mapM PermissionFlag.ofTerm = .ok flags →
      before.find? name = some slot →
      after.find? name = some { slot with permission := slot.permission.applyAll flags } →
      before.AgreeBut name after →
      Alters .classChmod (target :: .symbol name :: terms) [] before after
  | closed {target : Value} {before : SlotTable} :
      Alters .classFinalize [target] [] before before.finalise

/-- A step that changes the slots of a class gives this class other slots, and does nothing else. -/
theorem Action.exists_of_run_eq_ok {action : Action α} {id : ClassId} {s s' : Store} {a : α}
    (target : action.target? = some id) (ran : action.run s = .ok a s') :
    ∃ table, action.change (s.slots id) = .ok table ∧ s' = s.setSlots id table := by
  cases action with
  | finalise =>
    cases target
    cases ran
    exact ⟨_, rfl, rfl⟩
  | defineSlot | writeSlot | chmodSlot =>
    cases target
    simp only [run, EvalM.editSlots, EvalM.edit] at ran
    split at ran
    · next edited =>
      cases ran
      split at edited
      · next table changed => exact ⟨table, changed, (Except.ok.inj edited).symm⟩
      · cases edited
    · cases ran
  | _ => cases target

namespace SlotTable

variable {table table' : SlotTable} {name : Symbol}

/-- A declaration that is allowed adds one slot that is unset. -/
theorem of_define_eq_ok {datatype : Option Datatype}
    (defined : table.define name datatype = .ok table') :
    table.find? name = none ∧ table' = table.insert name { datatype } := by
  unfold define at defined
  split at defined
  · cases defined
  · split at defined
    · cases defined
    · next new =>
      obtain rfl := Except.ok.inj defined
      exact ⟨by simpa [contains] using new, rfl⟩

/-- A change of permissions that is allowed changes those of one slot. -/
theorem exists_of_chmod_eq_ok {flags : List PermissionFlag}
    (changed : (table.chmod name flags).map Prod.snd = .ok table') :
    ∃ slot, table.find? name = some slot ∧
      table' = table.insert name { slot with permission := slot.permission.applyAll flags } := by
  unfold chmod at changed
  split at changed
  · cases changed
  · split at changed
    · cases changed
    · next slot found =>
      obtain rfl := Except.ok.inj changed
      exact ⟨slot, found, rfl⟩

end SlotTable

/-- What passes in two parts passes in each of them. -/
theorem Error.exists_of_bind_eq_ok {first : Except Error α} {rest : α → Except Error β} {b : β}
    (passed : (first >>= rest) = .ok b) : ∃ a, first = .ok a ∧ rest a = .ok b := by
  cases first with
  | ok a => exact ⟨a, rfl, passed⟩
  | error e => cases passed

theorem Datatype.exists_of_ofTerm_eq_ok {term : Value} {datatype : Datatype}
    (typed : Datatype.ofTerm term = .ok datatype) :
    ∃ word : Symbol, term = .symbol word ∧ Datatype.ofName? word.name = some datatype := by
  obtain ⟨word, read, typed⟩ := Error.exists_of_bind_eq_ok typed
  refine ⟨word, LiteralRole.of_read_eq_ok read, ?_⟩
  unfold ofName at typed
  split at typed
  · next found => exact Except.ok.inj typed ▸ found
  · cases typed

/-- The step of a form changes one class, in the way of the form. -/
theorem SpecialForm.alters_of_step {access : ClassId → Access} {form : SpecialForm}
    {args values : List Value} {action : Action Unit}
    (stepped : form.step access args values = .ok action) :
    ∃ id others, values = .classObject id :: others ∧ action.target? = some id ∧
      ∀ before after, action.change before = .ok after → form.Alters args others before after := by
  unfold step at stepped
  split at stepped
  · next target term id =>
    obtain ⟨name, named, ended⟩ := Error.exists_of_bind_eq_ok stepped
    cases ended
    cases LiteralRole.of_read_eq_ok named
    refine ⟨id, [], rfl, rfl, fun before after defined => ?_⟩
    obtain ⟨new, rfl⟩ := SlotTable.of_define_eq_ok defined
    exact .defined new (before.find?_insert_self name _) (before.agreeBut_insert name _)
  · next target term typeTerm id =>
    obtain ⟨name, named, rest⟩ := Error.exists_of_bind_eq_ok stepped
    obtain ⟨datatype, typed, ended⟩ := Error.exists_of_bind_eq_ok rest
    cases ended
    cases LiteralRole.of_read_eq_ok named
    obtain ⟨word, rfl, known⟩ := Datatype.exists_of_ofTerm_eq_ok typed
    refine ⟨id, [], rfl, rfl, fun before after defined => ?_⟩
    obtain ⟨new, rfl⟩ := SlotTable.of_define_eq_ok defined
    exact .declared known new (before.find?_insert_self name _) (before.agreeBut_insert name _)
  · cases stepped
  · next target name term id value =>
    cases stepped
    refine ⟨id, [value], rfl, rfl, fun before after written => ?_⟩
    obtain ⟨slot, found, -, rfl⟩ := SlotTable.exists_of_set_eq_ok written
    exact .written found (before.find?_insert_self name _) (before.agreeBut_insert name _)
  · cases stepped
  · cases stepped
  · next target term terms id =>
    obtain ⟨name, named, rest⟩ := Error.exists_of_bind_eq_ok stepped
    obtain ⟨flags, listed, ended⟩ := Error.exists_of_bind_eq_ok rest
    cases ended
    cases LiteralRole.of_read_eq_ok named
    refine ⟨id, [], rfl, rfl, fun before after changed => ?_⟩
    obtain ⟨slot, found, rfl⟩ := SlotTable.exists_of_chmod_eq_ok changed
    exact .permitted listed found (before.find?_insert_self name _) (before.agreeBut_insert name _)
  · cases stepped
  · next target id =>
    cases stepped
    refine ⟨id, [], rfl, rfl, fun before after closed => ?_⟩
    cases closed
    exact .closed
  · cases stepped

/-- A step that is refused leaves the store as it was. -/
theorem Action.eq_of_run_eq_error {action : Action α} {s s' : Store} {e : Error}
    (refused : action.run s = .error e s') : s' = s := by
  cases action with
  | lookup | readSlot =>
    simp only [run, EvalM.lookup, EvalM.getSlot, EvalM.ask] at refused
    split at refused <;> cases refused
    rfl
  | define | assign | defineSlot | writeSlot | chmodSlot =>
    simp only [run, EvalM.define, EvalM.assign, EvalM.editSlots, EvalM.edit] at refused
    split at refused <;> cases refused
    rfl
  | _ => cases refused

/-! ## Forms as a whole -/

namespace Store

variable {s : Store} {id : ClassId}

theorem classInfo_setSlots_of_ne {other : ClassId} (ne : other ≠ id) (table : SlotTable) :
    (s.setSlots id table).classInfo other = s.classInfo other := by
  simp [classInfo, setSlots, Array.getElem?_modify, Ne.symm ne]

/-- A class that has been made gets the slots, and keeps what is above it. -/
theorem classInfo_setSlots_self (made : id < s.classes.size) (table : SlotTable) :
    (s.setSlots id table).classInfo id = { s.classInfo id with slots := table } := by
  simp only [classInfo, setSlots, Array.getElem?_modify]
  simp [made]

end Store

namespace Context

variable {ctx : Context} {scope : Scope} {form : SpecialForm} {args : List Value} {s s' : Store}

/-- What fails in a form that changes a class has changed nothing since the operands have been
evaluated. -/
theorem after_operands_of_apply_eq_error (changes : form.changesClass = true) {e : Error}
    (failed : (ctx.apply scope (.builtin (.form form)) args : EvalM Value) s = .error e s') :
    s' = (ctx.evalOperands scope (form.operands args)).after s := by
  rw [apply_class_form ctx scope changes args] at failed
  cases evaluated : ctx.evalOperands scope (form.operands args) s with
  | error e' s₀ =>
    rw [EvalM.bind_of_error evaluated] at failed
    cases failed
    simp only [EvalM.after, evaluated]
  | ok values s₀ =>
    rw [EvalM.bind_of_ok evaluated] at failed
    simp only [EvalM.after, evaluated]
    cases stepped : form.step ctx.access args values with
    | error e' =>
      rw [stepped] at failed
      cases failed
      rfl
    | ok action =>
      rw [stepped] at failed
      cases ran : action.run s₀ with
      | ok u s₁ =>
        have ended := EvalM.bind_of_ok ran fun _ => (pure .nil : EvalM Value)
        cases ended.symm.trans failed
      | error e' s₁ =>
        have ended := EvalM.bind_of_error ran fun _ => (pure .nil : EvalM Value)
        cases ended.symm.trans failed
        exact Action.eq_of_run_eq_error ran

/-- A form that succeeds has changed the class that its first operand stands for. -/
theorem exists_of_apply_eq_ok (changes : form.changesClass = true) {v : Value}
    (succeeded : (ctx.apply scope (.builtin (.form form)) args : EvalM Value) s = .ok v s') :
    v = .nil ∧ ∃ id values s₀ table,
      ctx.evalOperands scope (form.operands args) s = .ok (.classObject id :: values) s₀ ∧
      form.Alters args values (s₀.slots id) table ∧ s' = s₀.setSlots id table := by
  rw [apply_class_form ctx scope changes args] at succeeded
  obtain ⟨values, s₀, evaluated, succeeded⟩ := EvalM.exists_of_bind_eq_ok succeeded
  cases stepped : form.step ctx.access args values with
  | error e =>
    rw [stepped] at succeeded
    cases succeeded
  | ok action =>
    rw [stepped] at succeeded
    obtain ⟨id, others, rfl, target, alters⟩ := SpecialForm.alters_of_step stepped
    obtain ⟨u, s₁, ran, ended⟩ := EvalM.exists_of_bind_eq_ok
      (x := action.run) (g := fun _ => (pure .nil : EvalM Value)) succeeded
    cases ended
    obtain ⟨table, changed, rfl⟩ := action.exists_of_run_eq_ok target ran
    exact ⟨rfl, id, others, s₀, table, evaluated, alters _ _ changed, rfl⟩

end Context

/-- The values of operands have classes that have been made, if the terms have. -/
theorem Vocabulary.keeps_evalOperands {V : Vocabulary} {start : Store} (ctx : Context)
    (scope : Scope) {terms : List Value} (given : ∀ term ∈ terms, V.Covers start term) :
    V.Keeps start (ctx.evalOperands scope terms) fun s values => ∀ v ∈ values, V.Covers s v := by
  have level : V.discipline.Level ctx.level :=
    Discipline.level_evalAt V.names_discipline ctx.limit _
  cases terms with
  | nil => exact keeps_pure fun _ _ => nofun
  | cons target terms =>
    rw [List.forall_mem_cons] at given
    have first : V.Keeps start (ctx.level.evalClass ctx.grants scope target) fun s id =>
        V.Covers s (.classObject id) := Discipline.keeps_evalClass level ctx.grants scope given.1
    refine keeps_bind first fun s id extended made => ?_
    have later : ∀ term ∈ terms, V.Covers s term :=
      fun term mem => (given.2 term mem).extend extended
    have rest : V.Keeps s (ctx.level.evalAll ctx.grants scope terms) fun s values =>
        ∀ v ∈ values, V.Covers s v := Discipline.keeps_evalAll level ctx.grants scope later
    refine keeps_bind rest fun s values extended has => ?_
    refine keeps_pure fun s extended' => List.forall_mem_cons.mpr ⟨?_, ?_⟩
    · exact made.extend (extended.trans extended')
    · exact fun v mem => (has v mem).extend extended'

theorem SpecialForm.mem_of_mem_operands {form : SpecialForm} {args : List Value} {term : Value}
    (mem : term ∈ form.operands args) : term ∈ args := by
  unfold operands at mem
  split at mem <;> simp at mem ⊢ <;> grind

namespace Context

variable {ctx : Context} {scope : Scope} {form : SpecialForm} {address : Address}
  {head rest : Value} {s s₁ : Store}

/-- The class that the first operand stands for has been made, if all classes in the store and in
the term have been. -/
theorem made_of_operands {terms : List Value} {values : List Value} {id : ClassId} {s₀ : Store}
    (holds : Vocabulary.made.Holds s) (head_made : head.Made s)
    (made : ∀ term ∈ terms, term.Made s)
    (evaluated : (ctx.eval scope head : EvalM Value) s = .ok (.builtin (.form form)) s₁)
    (ran : ctx.evalOperands scope terms s₁ = .ok (.classObject id :: values) s₀) :
    id < s₀.classes.size := by
  have kept := Vocabulary.keeps_eval ctx scope head_made s (.refl s) holds
  have run : Vocabulary.made.Runs s s₁ := by
    simpa only [EvalM.after, evaluated] using kept.1
  have later := Vocabulary.keeps_evalOperands ctx scope made s₁ (Vocabulary.extends_of_runs run)
    (Vocabulary.holds_of_runs holds run)
  have covered : ∀ v ∈ Value.classObject id :: values, v.Made s₀ := by
    simpa only [EvalM.after, EvalM.outcome, ran] using later.2 _ (by simp only [EvalM.outcome, ran])
  exact covered _ List.mem_cons_self id rfl

section Form

variable (evaluated :
  (Context.eval { ctx with depth := ctx.depth + 1 } scope head : EvalM Value) s =
    .ok (.builtin (.form form)) s₁)

include evaluated

/-- A term headed by such a form that fails has changed nothing since its operands have been
evaluated. -/
theorem after_operands_of_eval_eq_error (changes : form.changesClass = true) {s' : Store}
    {e : Error}
    (failed : (ctx.eval scope (.pair address head rest) : EvalM Value) s = .error e s') :
    s' = (Context.evalOperands { ctx with depth := ctx.depth + 1 } scope
      (form.operands (rest.elements?.getD []))).after s₁ := by
  rw [eval_pair evaluated, Value.elements] at failed
  cases listed : rest.elements? with
  | none =>
    -- Nothing but the head is evaluated if the terms after it are no list.
    rw [listed] at failed
    cases failed
    cases form <;> rfl
  | some args =>
    rw [listed] at failed
    obtain ⟨e', failed⟩ := EvalM.exists_of_during_eq_error failed
    exact after_operands_of_apply_eq_error changes failed

/-- A term headed by such a form that succeeds has changed the class that its first operand stands
for. -/
theorem exists_of_eval_eq_ok (changes : form.changesClass = true) {s' : Store} {v : Value}
    (succeeded : (ctx.eval scope (.pair address head rest) : EvalM Value) s = .ok v s') :
    v = .nil ∧ ∃ args id values s₀ table, rest.elements? = some args ∧
      Context.evalOperands { ctx with depth := ctx.depth + 1 } scope (form.operands args) s₁ =
        .ok (.classObject id :: values) s₀ ∧
      form.Alters args values (s₀.slots id) table ∧ s' = s₀.setSlots id table := by
  rw [eval_pair evaluated, Value.elements] at succeeded
  cases listed : rest.elements? with
  | none =>
    rw [listed] at succeeded
    cases succeeded
  | some args =>
    rw [listed] at succeeded
    have applied := EvalM.of_during_eq_ok succeeded
    obtain ⟨rfl, id, values, s₀, table, ran, alters, last⟩ := exists_of_apply_eq_ok changes applied
    exact ⟨rfl, args, id, values, s₀, table, rfl, ran, alters, last⟩

end Form

/-- **The forms that change classes are atomic and local.**  Take a term whose head stands for one
of the four forms, and the store `s₁` in which the head has been evaluated.

* If the term fails, the whole store is as it was when the operands of the form had been evaluated,
  as far as they had been: no slot of any class or frame has changed since.
* If it succeeds, its operands have been evaluated, with a class as the first value.  Since then
  only the slots of this class have changed, in the way of the form: one slot that was not there is
  there, unset and open to all; or one slot has another value; or one slot has the permission
  changed by all the flags; or the class is finalised.  Every frame, every other class, and what is
  above the class are as they were. -/
theorem class_form (changes : form.changesClass = true)
    (evaluated : (Context.eval { ctx with depth := ctx.depth + 1 } scope head : EvalM Value) s =
      .ok (.builtin (.form form)) s₁) :
    let args := rest.elements?.getD []
    let operands :=
      Context.evalOperands { ctx with depth := ctx.depth + 1 } scope (form.operands args)
    (∀ e s', (ctx.eval scope (.pair address head rest) : EvalM Value) s = .error e s' →
      s' = operands.after s₁) ∧
    ∀ v s', (ctx.eval scope (.pair address head rest) : EvalM Value) s = .ok v s' →
      v = .nil ∧ ∃ id values s₀ table,
        operands s₁ = .ok (.classObject id :: values) s₀ ∧
        form.Alters args values (s₀.slots id) table ∧
        s' = s₀.setSlots id table ∧ s'.frames = s₀.frames ∧
        (∀ other, other ≠ id → s'.classInfo other = s₀.classInfo other) ∧
        (Vocabulary.made.Holds s → (Value.pair address head rest).Made s →
          s'.classInfo id = { s₀.classInfo id with slots := table }) := by
  intro args operands
  refine ⟨fun e s' failed => after_operands_of_eval_eq_error evaluated changes failed, ?_⟩
  intro v s' succeeded
  obtain ⟨rfl, _, id, values, s₀, table, listed, ran, alters, rfl⟩ :=
    exists_of_eval_eq_ok evaluated changes succeeded
  obtain rfl : args = _ := congrArg (Option.getD · []) listed
  refine ⟨rfl, id, values, s₀, table, ran, alters, rfl, rfl, ?_, ?_⟩
  · exact fun other ne => Store.classInfo_setSlots_of_ne ne table
  · intro holds given
    have list : rest.elements = .ok args := by simp only [Value.elements, listed]
    have made : ∀ term ∈ form.operands args, term.Made s := fun term mem =>
      given.2.elements list term (SpecialForm.mem_of_mem_operands mem)
    exact Store.classInfo_setSlots_self (made_of_operands holds given.1 made evaluated ran) table

end Context

theorem class_form_setPoint :
    SpecialForm.classSet.changesClass = true ∧
    (Context.eval { depth := 1 } globalScope (.builtin (.form .classSet)) : EvalM Value)
      pointStore = .ok (.builtin (.form .classSet)) pointStore ∧
    ∃ s' table, (Context.eval {} globalScope setPoint : EvalM Value) pointStore = .ok .nil s' ∧
      SpecialForm.classSet.Alters [.classObject 1, .symbol ⟨36, "y"⟩, .integer 2] [.integer 2]
        (pointStore.slots 1) table ∧
      s' = pointStore.setSlots 1 table := by
  have head : (Context.eval { depth := 1 } globalScope (.builtin (.form .classSet)) :
      EvalM Value) pointStore = .ok (.builtin (.form .classSet)) pointStore := rfl
  have succeeded : (Context.eval {} globalScope setPoint : EvalM Value) pointStore =
      .ok .nil ((EvalM.after (Context.eval {} globalScope setPoint)) pointStore) := rfl
  have changes : SpecialForm.classSet.changesClass = true := rfl
  obtain ⟨-, id, values, s₀, table, ran, alters, last, -⟩ :=
    (Context.class_form changes head).2 .nil _ succeeded
  cases ran
  exact ⟨changes, head, _, table, succeeded, alters, last⟩

end GuardedLisp
