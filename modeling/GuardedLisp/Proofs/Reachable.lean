import GuardedLisp.Proofs.Depth
import GuardedLisp.Proofs.Drivers
import GuardedLisp.Proofs.Vocabulary

/-!
# Reachable stores

A store is reachable if it comes of the store that an interpreter starts with by steps of
evaluation, by reading and by taking out what has been printed.  A step may only be given classes
that have been made.  So the stores in the midst of an evaluation count as reachable, and what
holds of all reachable stores is shown step by step.

## Main definitions

* `Value.Made`: all classes in a value have been made
* `Store.Move`, `Store.Moves`: one move from store to store, and moves in a row
* `Store.Reachable`: what an interpreter's store may become
* `Upkeep`: what goes on to be known while forms are read and evaluated

## Main results

* `Store.Reachable.holds`: in a reachable store there are no classes but those that have been made
* `Store.Reachable.moves_eval`: evaluation leads from a reachable store to reachable ones
* `Store.Reachable.every_slots`: what lasts in slots of classes holds in reachable stores
* `Upkeep.knows_serveAll`: what is kept up is known whatever texts an interpreter takes
* `Interpreter.reachable_serveAll`: whatever texts a fresh interpreter takes, its store is reachable
-/

namespace GuardedLisp

/-- The condition that a class has been made. -/
def Vocabulary.made : Vocabulary where
  allows s v := ∀ id, v = .classObject id → id < s.classes.size
  nil _ := nofun
  bool _ _ := nofun
  integer _ _ := nofun
  begin _ := nofun
  lambda _ := nofun
  classObject made _ same := Value.classObject.inj same ▸ made
  extend extended made id same := Nat.lt_of_lt_of_le (made id same) extended.size

/-- All classes in a value have been made. -/
abbrev Value.Made (s : Store) (v : Value) : Prop := Vocabulary.made.Covers s v

namespace Store

/-- What may happen to the store of an interpreter at once. -/
inductive Move (s : Store) : Store → Prop
  /-- A step of evaluation that is given classes that have been made. -/
  | act {α : Type} (action : Action α) :
      (∀ v ∈ action.operands, v.Made s) → Move s (action.run.after s)
  /-- The values of data that have been read are made. -/
  | read (data : List Datum) : Move s ((EvalM.alloc (data.mapM Alloc.ofDatum)).after s)
  /-- The text that has been printed is taken out. -/
  | takeOutput : Move s { s with output := "" }

/-- Moves in a row. -/
abbrev Moves : Store → Store → Prop := Relation.ReflTransGen Move

/-- What the store of an interpreter may become. -/
def Reachable (s : Store) : Prop := initial.Moves s

variable {s s' : Store}

theorem reachable_initial : initial.Reachable := .refl

theorem Reachable.moves (reachable : s.Reachable) (moves : s.Moves s') : s'.Reachable :=
  reachable.trans moves

theorem extends_of_move (move : s.Move s') : s.Extends s' := by
  cases move with
  | act action _ => exact action.extends_after s
  | read | takeOutput => exact .of_classes_eq rfl

theorem extends_of_moves (moves : s.Moves s') : s.Extends s' := by
  induction moves with
  | refl => exact .refl s
  | tail _ move extended => exact extended.trans (extends_of_move move)

/-- A run that is given classes that have been made is made of moves. -/
theorem moves_of_runs (run : Vocabulary.made.Runs s s') : s.Moves s' := by
  refine Relation.ReflTransGen.mono (fun s s' step => ?_) _ _ run
  obtain ⟨α, action, given, rfl⟩ := step
  exact .act action given

/-! ## The store from the start -/

/-- The global frame starts with a slot for every name that is bound from the start. -/
theorem entries_initial :
    (initial.frame 0).entries = globalBindings.map fun (name, value) =>
      (name, { value := some value }) := by
  decide +kernel

theorem frame_initial_of_ne {id : FrameId} (other : id ≠ 0) : initial.frame id = {} := by
  have absent : initial.frames[id]? = none := by
    rw [Array.getElem?_eq_none_iff]
    exact Nat.pos_of_ne_zero other
  rw [frame, absent]
  rfl

/-- What is said of all slots of frames holds at the start if it holds of slots with the values
that are bound from the start. -/
theorem every_frame_initial {p : Slot → Prop}
    (has : ∀ binding ∈ globalBindings, p { value := some binding.2 }) (id : FrameId) :
    (initial.frame id).Every p := by
  by_cases outermost : id = 0
  · subst outermost
    rw [SlotTable.Every, entries_initial, List.forall_mem_map]
    exact has
  · rw [frame_initial_of_ne outermost]
    exact .empty

theorem slots_initial (id : ClassId) : initial.slots id = {} := by
  match id with
  | 0 => rfl
  | id + 1 => rfl

/-- Nothing is bound from the start but operations, `nil`, truth values and the first class. -/
theorem holds_initial {good : Value → Prop} (builtin : ∀ op, good (.builtin op)) (nil : good .nil)
    (bool : ∀ b, good (.bool b)) (base : good (.classObject baseClass)) : initial.Holds good := by
  constructor
  · refine every_frame_initial fun binding mem v has => ?_
    obtain ⟨entry, listed, rfl⟩ := List.mem_map.mp mem
    obtain rfl := Option.some.inj has
    simp only [globalValues, List.mem_append, List.mem_map, List.mem_cons, List.not_mem_nil,
      or_false] at listed
    rcases listed with ⟨op, -, rfl⟩ | rfl | rfl | rfl | rfl
    · exact builtin op
    · exact nil
    · exact bool true
    · exact bool false
    · exact base
  · intro id
    rw [slots_initial]
    exact .empty

theorem made_initial : Vocabulary.made.Holds initial := by
  have holds : initial.Holds (Vocabulary.made.Covers initial) := by
    refine holds_initial (fun _ => nofun) nofun (fun _ => nofun) fun id same => ?_
    exact Value.classObject.inj same ▸ Nat.zero_lt_one
  exact ⟨holds.frames, holds.classes⟩

/-! ## What holds in reachable stores -/

theorem holds_of_move (holds : Vocabulary.made.Holds s) (move : s.Move s') :
    Vocabulary.made.Holds s' := by
  cases move with
  | act action given => exact Vocabulary.holds_of_step holds ⟨_, action, given, rfl⟩
  | read | takeOutput => exact ⟨holds.frames, holds.classes⟩

namespace Reachable

/-- In a reachable store there are no classes but those that have been made. -/
theorem holds (reachable : s.Reachable) : Vocabulary.made.Holds s := by
  induction reachable with
  | refl => exact made_initial
  | tail _ move holds => exact holds_of_move holds move

/-- **Evaluation leads from a reachable store to reachable ones**, with whatever it ends, and a
value that it ends with has been made. -/
theorem moves_eval (reachable : s.Reachable) (ctx : Context) (scope : Scope) {term : Value}
    (made : term.Made s) :
    s.Moves (EvalM.after (ctx.eval scope term) s) ∧
      ∀ v, EvalM.outcome (ctx.eval scope term) s = .ok v →
        v.Made (EvalM.after (ctx.eval scope term) s) := by
  obtain ⟨run, gives⟩ :=
    Vocabulary.keeps_eval ctx scope made s (.refl s) reachable.holds
  exact ⟨moves_of_runs run, gives⟩

/-- What lasts in slots of classes holds in reachable stores. -/
theorem every_slots {p : Slot → Prop} (lasts : Slot.Lasts p fun _ => True)
    (reachable : s.Reachable) (id : ClassId) : (s.slots id).Every p := by
  induction reachable generalizing id with
  | refl =>
    rw [slots_initial]
    exact .empty
  | tail _ move every =>
    cases move with
    | act action _ => exact action.every_slots lasts (fun _ _ => trivial) every id
    | read | takeOutput => exact every id

/-- In no class of a reachable store a name has two slots. -/
theorem nodup_slots (reachable : s.Reachable) (id : ClassId) : (s.slots id).names.Nodup := by
  induction reachable generalizing id with
  | refl =>
    rw [slots_initial]
    exact List.nodup_nil
  | tail _ move nodup =>
    cases move with
    | act action _ => exact action.nodup_slots nodup id
    | read | takeOutput => exact nodup id

end Reachable

end Store

/-! ## Interpreters -/

/-- What is known of a store and of forms that are still to be evaluated, and goes on to be known of
the later forms while they are evaluated in turn, and of forms that are read. -/
structure Upkeep where
  Knows : Store → List Value → Prop
  forget {s : Store} {forms : List Value} : Knows s forms → Knows s []
  eval {s : Store} {form : Value} {forms : List Value} (ctx : Context) :
    Knows s (form :: forms) → Knows (EvalM.after (ctx.eval globalScope form) s) forms
  read {s : Store} {source : String} {table known : SymbolTable} {data : List Datum} :
    Reader.readAll source table = (.ok data, known) → Knows s [] →
      Knows ((EvalM.alloc (data.mapM Alloc.ofDatum)).after s)
        ((data.mapM Alloc.ofDatum).run s.nextAddress).1

namespace Upkeep

open Interpreter

variable (U : Upkeep) {i : Interpreter} {forms : List Value}

theorem knows_eval {form : Value} (knows : U.Knows i.store (form :: forms)) :
    U.Knows (i.eval form).2.store forms := by
  rw [Interpreter.eval, perform_eq]
  exact U.eval i.context knows

theorem knows_evalForms (last : Value) (knows : U.Knows i.store forms) :
    U.Knows (i.evalForms last forms).2.store [] := by
  induction forms generalizing i last with
  | nil => exact knows
  | cons form forms ih =>
    have later := U.knows_eval knows
    rw [evalForms]
    split
    · next value i ran =>
      rw [ran] at later
      exact ih value later
    · next e i ran =>
      rw [ran] at later
      exact U.forget later

theorem knows_runForms (knows : U.Knows i.store forms) :
    U.Knows (i.runForms forms).2.store [] := by
  induction forms generalizing i with
  | nil => exact knows
  | cons form forms ih => exact ih (U.knows_eval knows)

theorem knows_loadForms (report : LoadReport) (knows : U.Knows i.store forms) :
    U.Knows (i.loadForms report forms).2.store [] := by
  induction forms generalizing i report with
  | nil => exact knows
  | cons form forms ih => exact ih _ (U.knows_eval knows)

/-- A text that is not read changes nothing in the store. -/
theorem knows_readAll (knows : U.Knows i.store []) (source : String) :
    match i.readAll source with
    | (.ok forms, i) => U.Knows i.store forms
    | (.error _, i) => U.Knows i.store [] := by
  simp only [readAll, accept]
  cases read : Reader.readAll source i.symbols with
  | mk outcome known =>
    cases outcome with
    | error report => exact knows
    | ok data => exact U.read read knows

theorem knows_serve (knows : U.Knows i.store []) (driver : Driver) (source : String) :
    U.Knows (i.serve driver source).2.store [] := by
  have read := U.knows_readAll knows source
  cases driver with
  | eval =>
    simp only [serve, evalSource]
    split
    · next forms i ran =>
      rw [ran] at read
      exact U.knows_evalForms .nil read
    · next e i ran =>
      rw [ran] at read
      exact read
  | run =>
    simp only [serve, runSource]
    split
    · next forms i ran =>
      rw [ran] at read
      exact U.knows_runForms read
    · next e i ran =>
      rw [ran] at read
      exact read
  | load =>
    simp only [serve, loadSource]
    split
    · next forms i ran =>
      rw [ran] at read
      exact U.knows_loadForms {} read
    · next e i ran =>
      rw [ran] at read
      exact read

/-- **What is kept up is known of every store** that an interpreter comes to by taking texts, in
whatever ways. -/
theorem knows_serveAll (knows : U.Knows i.store []) (script : List (Driver × String)) :
    U.Knows (i.serveAll script).2.store [] := by
  induction script generalizing i with
  | nil => exact knows
  | cons request script ih => exact ih (U.knows_serve knows request.1 request.2)

end Upkeep

/-- There is no class in what has been read. -/
theorem Alloc.made_ofDatum (s : Store) (datum : Datum) (next : Address) :
    ((ofDatum datum).run next).1.Made s := by
  induction datum generalizing next with
  | pair first rest ihFirst ihRest => exact ⟨ihFirst next, ihRest _⟩
  | _ => nofun

/-- What holds of the values of data one by one holds of all of them. -/
theorem Alloc.forall_mem_ofData {p : Value → Prop} {data : List Datum} (start : Address)
    (has : ∀ datum ∈ data, ∀ next, p ((ofDatum datum).run next).1) :
    ∀ v ∈ ((data.mapM ofDatum).run start).1, p v := by
  induction data generalizing start with
  | nil => exact List.forall_mem_nil _
  | cons datum data ih =>
    rw [List.forall_mem_cons] at has
    rw [List.mapM_cons]
    exact List.forall_mem_cons.mpr ⟨has.1 start, ih _ has.2⟩

/-- That a store is reachable, and that the classes of later forms have been made. -/
def Upkeep.reachable : Upkeep where
  Knows s forms := s.Reachable ∧ ∀ form ∈ forms, form.Made s
  forget knows := ⟨knows.1, List.forall_mem_nil _⟩
  eval ctx knows := by
    obtain ⟨reachable, made⟩ := knows
    rw [List.forall_mem_cons] at made
    have moves := (reachable.moves_eval ctx globalScope made.1).1
    have extended := Store.extends_of_moves moves
    exact ⟨reachable.moves moves, fun form mem => (made.2 form mem).extend extended⟩
  read {s _ _ _ data} _ knows :=
    ⟨knows.1.moves (.single (.read data)), Alloc.forall_mem_ofData s.nextAddress
      fun datum _ => Alloc.made_ofDatum _ datum⟩

/-- **Whatever texts a fresh interpreter takes**, in whatever ways and with whatever limit, its
store is reachable. -/
theorem Interpreter.reachable_serveAll (limit : Nat) (script : List (Driver × String)) :
    ((fresh limit).serveAll script).2.store.Reachable :=
  (Upkeep.reachable.knows_serveAll ⟨Store.reachable_initial, List.forall_mem_nil _⟩ script).1

end GuardedLisp
