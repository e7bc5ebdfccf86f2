import GuardedLisp.Proofs.Reachable

/-!
# Frames stay plain and only grow

Frames keep their names in the same kind of table as classes do, with permissions, datatypes and
all.  None of that is ever used for a frame: a name is bound together with its value and is open to
all.  So of the ways in which a table may refuse an access only those are met that have to do with
whether the name is there.  Nothing takes a name away, from a frame or from a class.

## Main definitions

* `Slot.Plain`, `SlotTable.Plain`: nothing but values, and open to changes
* `Store.Retains`: a store in which no frame and no class has lost a name

## Main results

* `Store.Reachable.plain_frames`: the frames of a reachable store are plain
* `Store.retains_of_moves`: names are there for ever
* `Store.Reachable.frames`: what that means for names in scopes
-/

namespace GuardedLisp

/-! ## Plain tables -/

/-- A slot with a value, the permission that is open to all, and no datatype. -/
def Slot.Plain (slot : Slot) : Prop :=
  slot.permission = {} ∧ slot.datatype = none ∧ slot.value.isSome = true

/-- A table that is not finalised and has plain slots only. -/
structure SlotTable.Plain (table : SlotTable) : Prop where
  unclosed : table.finalised = false
  slots : table.Every Slot.Plain

namespace SlotTable.Plain

variable {table : SlotTable} (plain : table.Plain) {name : Symbol}

include plain

/-- What is done to a frame leaves it plain. -/
theorem of_rebinds {table' : SlotTable} {written? : Option Value}
    (rebinds : table.Rebinds written? table') : table'.Plain := by
  cases rebinds with
  | same => exact plain
  | bound => exact ⟨plain.unclosed, plain.slots.insert _ ⟨rfl, rfl, rfl⟩⟩
  | written found =>
    obtain ⟨permission, datatype, -⟩ := plain.slots.of_find? found
    exact ⟨plain.unclosed, plain.slots.insert _ ⟨permission, datatype, rfl⟩⟩

/-- Every name of a plain table can be read. -/
theorem exists_get (there : table.contains name = true) (access : Access) :
    ∃ v, table.get name access = .ok v := by
  obtain ⟨slot, found⟩ := Option.isSome_iff_exists.mp there
  obtain ⟨permission, -, has⟩ := plain.slots.of_find? found
  obtain ⟨v, has⟩ := Option.isSome_iff_exists.mp has
  have allowed : slot.permission.allowsRead access = true := by
    rw [permission]
    rfl
  exact ⟨v, by simp [get, found, has, allowed]⟩

/-- Every name of a plain table can be written. -/
theorem exists_set (there : table.contains name = true) (value : Value) (access : Access) :
    ∃ table', table.set name value access = .ok table' := by
  obtain ⟨slot, found⟩ := Option.isSome_iff_exists.mp there
  obtain ⟨permission, datatype, -⟩ := plain.slots.of_find? found
  have allowed : slot.permission.allowsWrite access = true := by
    rw [permission]
    rfl
  exact ⟨_, by simp only [set, found, allowed, datatype]; rfl⟩

/-- A plain table refuses a new binding only to a name that it has. -/
theorem defineValue_eq_error {value : Value} {e : Error}
    (refused : table.defineValue name value = .error e) :
    table.contains name = true ∧ e = .alreadyDefined name.name := by
  rw [defineValue_eq, plain.unclosed, if_neg Bool.false_ne_true] at refused
  split at refused
  · next there => exact ⟨there, (Except.error.inj refused).symm⟩
  · cases refused

end SlotTable.Plain

/-! ## Scopes of plain frames -/

theorem EvalM.of_outcome_edit {change : Store → Except Error Store} {e : Error}
    (refused : (EvalM.edit change).outcome s = .error e) : change s = .error e := by
  unfold EvalM.outcome EvalM.edit at refused
  cases changed : change s with
  | ok s' =>
    rw [changed] at refused
    cases refused
  | error e' =>
    rw [changed] at refused
    exact congrArg Except.error (Except.error.inj refused)

namespace Store

variable {s s' : Store}

theorem nearest?_spec {scope : Scope} {name : Symbol} {id : FrameId}
    (nearest : s.nearest? scope name = some id) :
    id ∈ scope.chain ∧ (s.frame id).contains name = true :=
  ⟨List.mem_of_find?_eq_some nearest,
    List.find?_some (p := fun id => (s.frame id).contains name) nearest⟩

section Plain

variable (plain : ∀ id, (s.frame id).Plain) {scope : Scope} {name : Symbol} {e : Error}

include plain

theorem exists_lookup (there : ∃ id ∈ scope.chain, (s.frame id).contains name = true) :
    ∃ v, s.lookup scope name = .ok v := by
  unfold lookup
  split
  · next none =>
    obtain ⟨id, mem, there⟩ := there
    exact absurd there (List.find?_eq_none.mp none id mem)
  · next id nearest => exact (plain id).exists_get (nearest?_spec nearest).2 .outside

omit plain in
/-- A name that has a value in a scope is in one of its frames. -/
theorem exists_of_lookup {v : Value} (found : s.lookup scope name = .ok v) :
    ∃ id ∈ scope.chain, (s.frame id).contains name = true := by
  unfold lookup at found
  split at found
  · cases found
  · next id nearest => exact ⟨id, nearest?_spec nearest⟩

theorem lookup_eq_error (refused : s.lookup scope name = .error e) :
    e = .missingSymbol name.name := by
  unfold lookup at refused
  split at refused
  · exact (Except.error.inj refused).symm
  · next id nearest =>
    obtain ⟨v, read⟩ := (plain id).exists_get (nearest?_spec nearest).2 .outside
    rw [read] at refused
    cases refused

/-- A symbol that is there has a value, unless there is no level left to look. -/
theorem eval_symbol_eq_error {ctx : Context}
    (failed : EvalM.outcome (ctx.eval scope (.symbol name)) s = .error e) :
    e = .missingSymbol name.name ∨ e = .tooDeep ctx.limit := by
  unfold Context.eval Context.level at failed
  cases left : ctx.limit - ctx.depth with
  | zero =>
    rw [left] at failed
    exact .inr (Except.error.inj failed).symm
  | succ left' =>
    rw [left] at failed
    exact .inl (lookup_eq_error plain ((EvalM.outcome_ask _ s).symm.trans failed))

theorem assign_eq_error {value : Value} (refused : s.assign scope name value = .error e) :
    e = .missingSymbol name.name := by
  unfold assign at refused
  split at refused
  · exact (Except.error.inj refused).symm
  · next id nearest =>
    obtain ⟨table, written⟩ := (plain id).exists_set (nearest?_spec nearest).2 value .outside
    rw [written] at refused
    cases refused

theorem define_eq_error {value : Value} (refused : s.define scope name value = .error e) :
    e = .alreadyDefined name.name := by
  unfold define at refused
  split at refused
  · cases refused
  · next made =>
    obtain rfl := Except.error.inj refused
    exact ((plain scope.frame).defineValue_eq_error made).2

end Plain

/-! ## Names are there for ever -/

/-- No frame and no class has lost a name. -/
structure Retains (s s' : Store) : Prop where
  frames (id : FrameId) (name : Symbol) :
    (s.frame id).contains name = true → (s'.frame id).contains name = true
  classes (id : ClassId) (name : Symbol) :
    (s.slots id).contains name = true → (s'.slots id).contains name = true

namespace Retains

theorem refl (s : Store) : s.Retains s := ⟨fun _ _ => id, fun _ _ => id⟩

theorem trans {s'' : Store} (first : s.Retains s') (second : s'.Retains s'') : s.Retains s'' :=
  ⟨fun id name there => second.frames id name (first.frames id name there),
    fun id name there => second.classes id name (first.classes id name there)⟩

end Retains

end Store

/-- Only a class that has been made has names. -/
theorem Store.made_of_contains {s : Store} {id : ClassId} {name : Symbol}
    (there : (s.slots id).contains name = true) : id < s.classes.size := by
  rcases Nat.lt_or_ge id s.classes.size with made | absent
  · exact made
  · simp [slots, classInfo, Array.getElem?_eq_none absent, SlotTable.contains,
      SlotTable.find?] at there

/-- A step takes no name away. -/
theorem Action.retains_after (action : Action α) (s : Store) : s.Retains (action.run.after s) := by
  constructor
  · exact fun id name there => (action.rebinds s id).contains there
  · intro id name there
    rw [action.slots_after (Store.made_of_contains there)]
    split
    · exact (action.reshapes_change (s.slots id)).contains there
    · exact there

namespace Store

variable {s s' : Store}

theorem retains_of_reaches (run : s.Reaches s') : s.Retains s' := by
  induction run with
  | refl => exact .refl s
  | tail _ step retained =>
    obtain ⟨α, action, rfl⟩ := step
    exact retained.trans (action.retains_after _)

/-- Names are there for ever. -/
theorem retains_of_moves (moves : s.Moves s') : s.Retains s' := by
  induction moves with
  | refl => exact .refl s
  | tail _ move retained =>
    cases move with
    | act action _ => exact retained.trans (action.retains_after _)
    | read | takeOutput => exact retained.trans ⟨fun _ _ => id, fun _ _ => id⟩

namespace Reachable

/-- The frames of a reachable store are plain. -/
theorem plain_frames (reachable : s.Reachable) (id : FrameId) : (s.frame id).Plain := by
  induction reachable generalizing id with
  | refl =>
    refine ⟨?_, every_frame_initial (fun _ _ => ⟨rfl, rfl, rfl⟩) id⟩
    -- The global frame has been made unfinalised, and no other has been made at all.
    by_cases outermost : id = 0
    · subst outermost
      decide +kernel
    · rw [frame_initial_of_ne outermost]
  | tail _ move plain =>
    cases move with
    | act action _ => exact (plain id).of_rebinds (action.rebinds _ id)
    | read | takeOutput => exact plain id

/-- **Frames stay plain and only grow.**  In a reachable store no frame is finalised, and every slot
of a frame has a value, no datatype, and the permission that is open to all.  So the evaluation of
a symbol fails only if the symbol is missing or there is no level left for it; a name of a scope is
given another value unless it is missing, and a new binding is made unless there is one already.
Whatever is evaluated, and with whatever it ends, no name is taken from a frame or from a class, so
a name that has a value in a scope has one there for ever. -/
theorem frames (reachable : s.Reachable) :
    (∀ id, (s.frame id).Plain) ∧
    (∀ (ctx : Context) (scope : Scope) (name : Symbol) (e : Error),
      EvalM.outcome (ctx.eval scope (.symbol name)) s = .error e →
        e = .missingSymbol name.name ∨ e = .tooDeep ctx.limit) ∧
    (∀ (scope : Scope) (name : Symbol) (value : Value) (e : Error),
      (Action.assign scope name value).run.outcome s = .error e → e = .missingSymbol name.name) ∧
    (∀ (scope : Scope) (name : Symbol) (value : Value) (e : Error),
      (Action.define scope name value).run.outcome s = .error e → e = .alreadyDefined name.name) ∧
    (∀ (ctx : Context) (scope : Scope) (term : Value),
      s.Retains (EvalM.after (ctx.eval scope term) s)) ∧
    ∀ s', s.Moves s' → s.Retains s' ∧
      ∀ (scope : Scope) (name : Symbol) (v : Value),
        s.lookup scope name = .ok v → ∃ v', s'.lookup scope name = .ok v' := by
  have plain := reachable.plain_frames
  refine ⟨plain, ?_, ?_, ?_, ?_, ?_⟩
  · intro ctx scope name e failed
    exact eval_symbol_eq_error plain failed
  · intro scope name value e refused
    exact assign_eq_error plain (EvalM.of_outcome_edit refused)
  · intro scope name value e refused
    exact define_eq_error plain (EvalM.of_outcome_edit refused)
  · exact fun ctx scope term => retains_of_reaches (ctx.reaches_eval scope term s)
  · intro s' moves
    have retained := retains_of_moves moves
    refine ⟨retained, fun scope name v found => ?_⟩
    obtain ⟨id, mem, there⟩ := exists_of_lookup found
    have plain' := (reachable.moves moves).plain_frames
    exact exists_lookup plain' ⟨id, mem, retained.frames id name there⟩

end Reachable

end Store

/-- The term `(begin (define x 5) ((lambda (x) (set! x 6)) x) (car x))`, which fails in the end. -/
def defineAndFail : Value :=
  let x : Value := .symbol ⟨35, "x"⟩
  let form (form : SpecialForm) : List Value → Value := .applied (.builtin (.form form))
  form .begin [form .define [x, .integer 5],
    .applied (form .lambda [.applied x [], form .assign [x, .integer 6]]) [x],
    .applied (.builtin (.primitive (.part .first))) [x]]

theorem made_defineAndFail : defineAndFail.Made .initial := by
  simp [defineAndFail, Value.applied, Vocabulary.Covers, Value.Every, Vocabulary.made]

theorem frames_defineAndFail :
    (∃ e, EvalM.outcome (Context.eval {} globalScope defineAndFail) .initial = .error e) ∧
    (EvalM.after (Context.eval {} globalScope defineAndFail) .initial).lookup globalScope
      ⟨35, "x"⟩ = .ok (.integer 5) ∧
    ∀ s', (EvalM.after (Context.eval {} globalScope defineAndFail) .initial).Moves s' →
      ∃ v, s'.lookup globalScope ⟨35, "x"⟩ = .ok v := by
  have moves := (Store.reachable_initial.moves_eval {} globalScope made_defineAndFail).1
  have bound : (EvalM.after (Context.eval {} globalScope defineAndFail) .initial).lookup
      globalScope ⟨35, "x"⟩ = .ok (.integer 5) := by
    decide +kernel
  refine ⟨⟨.type (.pairRequired .first .integer) (some "(#<builtin:car> x)"), by decide +kernel⟩,
    bound, fun s' further => ?_⟩
  obtain ⟨-, -, -, -, -, later⟩ := Store.Reachable.frames (Store.reachable_initial.moves moves)
  exact (later s' further).2 _ _ _ bound

end GuardedLisp
