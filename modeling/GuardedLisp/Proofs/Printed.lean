import GuardedLisp.Proofs.Renaming.Turn

/-!
# What has been printed

Evaluation adds to what has been printed, and never looks at it.  So it makes no difference to some
forms whether the output is taken out after each of them or left until the last: they have the same
outcomes, print the same texts and end in the same store but for the output.

## Main definitions

* `Store.behind`: a store that has printed a text before all that it has printed
* `Simulation.behind`: computations that do not look at what has been printed

## Main results

* `Context.eval_behind`: evaluation does not look at what has been printed
* `Interpreter.runForms_eq_told`: outcomes that are kept, and outcomes that are told one by one
-/

namespace GuardedLisp

open Machine (act)

/-- A store that has printed a text before all that it has printed. -/
def Store.behind (text : String) (s : Store) : Store := { s with output := text ++ s.output }

theorem Store.define_behind (text : String) (s : Store) (scope : Scope) (name : Symbol)
    (value : Value) :
    (s.behind text).define scope name value = (s.define scope name value).map (behind text) := by
  have same : (s.behind text).frame = s.frame := rfl
  unfold define
  rw [same]
  cases (s.frame scope.frame).defineValue name value <;> rfl

theorem Store.assign_behind (text : String) (s : Store) (scope : Scope) (name : Symbol)
    (value : Value) :
    (s.behind text).assign scope name value = (s.assign scope name value).map (behind text) := by
  have nearest : (s.behind text).nearest? scope name = s.nearest? scope name := rfl
  have same : (s.behind text).frame = s.frame := rfl
  unfold assign
  rw [nearest, same]
  cases s.nearest? scope name with
  | none => rfl
  | some id => cases h : (s.frame id).set name value .outside <;> simp only [h] <;> rfl

namespace EvalM

/-- What a computation ends with, if a text has been printed before. -/
def resultBehind (text : String) :
    EStateM.Result Error Store α → EStateM.Result Error Store α
  | .ok a s => .ok a (s.behind text)
  | .error e s => .error e (s.behind text)

/-- What has been printed before `y` is started makes no difference but that it has been printed,
and without it `y` does what `x` does. -/
def Behind (text : String) (x y : EvalM α) : Prop :=
  ∀ s : Store, y (s.behind text) = resultBehind text (x s)

variable {text : String}

theorem Behind.bind {x y : EvalM α} {f g : α → EvalM β} (first : Behind text x y)
    (rest : ∀ a, Behind text (f a) (g a)) : Behind text (x >>= f) (y >>= g) := by
  intro s
  simp only [Bind.bind, EStateM.bind, first s]
  cases x s with
  | ok a s' => exact rest a s'
  | error e s' => rfl

theorem Behind.during (application : Value) {x y : EvalM α} (same : Behind text x y) :
    Behind text (x.during application) (y.during application) := by
  intro s
  simp only [EvalM.during, same s]
  cases x s <;> rfl

theorem behind_ask {query : Store → Except Error α}
    (same : ∀ s : Store, query (s.behind text) = query s) :
    Behind text (ask query) (ask query) := by
  intro s
  simp only [ask, same]
  cases query s <;> rfl

theorem behind_edit {change : Store → Except Error Store}
    (same : ∀ s : Store, change (s.behind text) = (change s).map (Store.behind text)) :
    Behind text (edit change) (edit change) := by
  intro s
  simp only [edit, same]
  cases change s <;> rfl

theorem behind_editSlots (id : ClassId) (change : SlotTable → Except Error SlotTable) :
    Behind text (editSlots id change) (editSlots id change) := by
  refine behind_edit fun s => ?_
  have same : (s.behind text).slots id = s.slots id := rfl
  rw [same]
  cases change (s.slots id) <;> rfl

/-- No step looks at what has been printed. -/
theorem behind_act (action : Action α) : Behind text (act action) (act action) := by
  cases action with
  | lookup scope name => exact behind_ask fun _ => rfl
  | define scope name value => exact behind_edit fun s => s.define_behind text scope name value
  | assign scope name value => exact behind_edit fun s => s.assign_behind text scope name value
  | readSlot id name access => exact behind_ask fun _ => rfl
  | defineSlot id name datatype => exact behind_editSlots id (SlotTable.define · name datatype)
  | writeSlot id name value access =>
    exact behind_editSlots id (SlotTable.set · name value access)
  | chmodSlot id name flags =>
    exact behind_editSlots id fun table => (table.chmod name flags).map Prod.snd
  | finalise id => exact behind_editSlots id (.ok ·.finalise)
  | enter | newClass | pair | list | closure => exact fun _ => rfl
  | print shown =>
    intro s
    have same : text ++ s.output ++ shown = text ++ (s.output ++ shown) := String.append_assoc ..
    exact congrArg (fun output => EStateM.Result.ok () { s with output }) same

end EvalM

/-- Computations that do not look at what has been printed. -/
def Simulation.behind (text : String) : Simulation EvalM EvalM where
  under := Eq
  rel := EvalM.Behind text
  rel_pure _ _ := rfl
  rel_fail _ _ := rfl
  rel_bind := .bind
  rel_during := .during
  rel_calling _ _ _ _ _ same := same
  rel_act action _ := EvalM.behind_act action
  rel_write _ _ _ same := same ▸ EvalM.behind_act _
  rel_read _ _ _ _ same rest := by
    subst same
    exact .bind (EvalM.behind_act _) (rest rfl)

/-- **Evaluation does not look at what has been printed.** -/
theorem Context.eval_behind (text : String) (ctx : Context) (scope : Scope) (term : Value) :
    EvalM.Behind text (ctx.eval scope term) (ctx.eval scope term) :=
  (Simulation.behind text).rel_eval ctx rfl scope term

namespace Interpreter

/-- An interpreter that has printed a text before all that it has printed. -/
def behind (text : String) (i : Interpreter) : Interpreter :=
  { i with store := i.store.behind text }

theorem behind_empty (i : Interpreter) : i.behind "" = i := by
  simp only [behind, Store.behind, String.empty_append]

theorem behind_behind (first second : String) (i : Interpreter) :
    (i.behind second).behind first = i.behind (first ++ second) := by
  simp only [behind, Store.behind, String.append_assoc]

theorem eval_behind (i : Interpreter) (text : String) (form : Value) :
    (i.behind text).eval form = ((i.eval form).1, (i.eval form).2.behind text) := by
  have ran : ((i.behind text).context.eval globalScope form : EvalM Value) (i.behind text).store =
      EvalM.resultBehind text ((i.context.eval globalScope form : EvalM Value) i.store) :=
    i.context.eval_behind text globalScope form i.store
  simp only [eval, perform, ran]
  cases (i.context.eval globalScope form : EvalM Value) i.store <;> rfl

theorem runForms_behind (i : Interpreter) (text : String) (forms : List Value) :
    (i.behind text).runForms forms = ((i.runForms forms).1, (i.runForms forms).2.behind text) := by
  induction forms generalizing i with
  | nil => rfl
  | cons form forms ih => simp only [runForms, eval_behind, ih]

/-- **The output may be taken out after each form.**  The outcomes are the same, and what has been
taken out is what would have been printed. -/
theorem runForms_eq_told (i : Interpreter) (forms : List Value) :
    i.runForms forms = ((i.turns .told forms).1.map Prod.snd,
      (i.turns .told forms).2.behind (String.join ((i.turns .told forms).1.map Prod.fst))) := by
  induction forms generalizing i with
  | nil => exact congrArg (([], ·)) i.behind_empty.symm
  | cons form forms ih =>
    rcases known : i.eval form with ⟨outcome, j⟩
    -- What the form has printed is put before what the others print.
    let emptied : Interpreter := { i with store := { j.store with output := "" } }
    have whole : j = emptied.behind j.store.output := by
      have same := i.eval_with form j.store
      rw [known] at same
      simp only [behind, Store.behind, emptied, String.append_empty]
      exact same
    have later := emptied.runForms_behind j.store.output forms
    rw [← whole, ih emptied] at later
    simp only [runForms, turns, Turn.told, known, later, List.map_cons, String.join_cons,
      behind_behind, emptied]

/-- After a form nothing is left of what has been printed. -/
theorem output_turns_told (i : Interpreter) (form : Value) (forms : List Value) :
    (i.turns .told (form :: forms)).2.store.output = "" := by
  induction forms generalizing i form with
  | nil => rfl
  | cons next forms ih => exact ih _ next

/-- What some of the forms that come first print. -/
theorem output_runForms_take (i : Interpreter) {forms : List Value} {k : Nat}
    (within : k < forms.length) :
    (i.runForms (forms.take (k + 1))).2.store.output =
      String.join (((i.turns .told forms).1.take (k + 1)).map Prod.fst) := by
  obtain ⟨form, rest, same⟩ := List.exists_cons_of_length_pos (Nat.zero_lt_of_lt within)
  have emptied : (i.turns .told (forms.take (k + 1))).2.store.output = "" := by
    rw [same, List.take_succ_cons]
    exact i.output_turns_told form _
  rw [runForms_eq_told, turns_take]
  simp only [behind, Store.behind, emptied, String.append_empty]

end Interpreter

end GuardedLisp
