import GuardedLisp.Proofs.Activation
import GuardedLisp.Proofs.Frames
import GuardedLisp.Proofs.Innermost
import GuardedLisp.Proofs.OneLine
import Mathlib.Data.List.Infix

/-!
# Where errors are raised

A type error or an overflow has one application in its message, and it is the innermost one that the
error came out of.  Whether there is one already is found out by looking for the mark that stands
before it, and a wording might have this mark for other reasons.  But the mark has a line break, and
what is shown of values is on one line.

To say where an error has been raised, evaluation is watched by a machine that does not touch
errors.  It only writes down the applications that an error comes out of.

## Main definitions

* `Raised`, `Tracer`: an error with the applications it came out of, and the machine that collects
  them
* `occurrences`: how often a text occurs in another one
* `Error.TellsWhere`: the errors to which an application is added
* `Raised.Stems`: an error comes from calling the head of its innermost application

## Main results

* `Simulation.tracing`: the errors of evaluation are the traced ones with applications added
* `Error.during_of_isMarked`: what the mark in a wording does
* `Tracer.sound_eval`: what is traced is on one line
* `Tracer.stems_eval`: the innermost application that is traced is the one that failed
* `Context.names_innermost`: the message of an error has the innermost application, once
-/

namespace GuardedLisp

open Machine (act fail during)

/-! ## The machine that traces errors -/

/-- An error as it was raised, and the applications that it has come out of, the innermost first. -/
structure Raised where
  cause : Error
  within : List Value
deriving DecidableEq

/-- Computations that trace where an error came from. -/
abbrev Tracer := EStateM Raised Store

instance : Machine Tracer where
  act action s :=
    match action.run s with
    | .ok a s => .ok a s
    | .error e s => .error ⟨e, []⟩ s
  fail e := throw ⟨e, []⟩
  during application x s :=
    match x s with
    | .ok a s => .ok a s
    | .error raised s => .error { raised with within := raised.within ++ [application] } s
  calling _ x := x

/-- What becomes of an error on its way out: each application in turn may be added. -/
def Raised.error (raised : Raised) : Error :=
  raised.within.foldl (fun e application => e.during application.text) raised.cause

/-- What a traced computation is without the trace. -/
def Tracer.untraced (x : Tracer α) : EvalM α := fun s =>
  match x s with
  | .ok a s => .ok a s
  | .error raised s => .error raised.error s

namespace Tracer

theorem untraced_bind (x : Tracer α) (f : α → Tracer β) :
    untraced (x >>= f) = x.untraced >>= fun a => (f a).untraced := by
  funext s
  simp only [untraced, bind, EStateM.bind]
  cases x s <;> rfl

theorem untraced_act (action : Action α) : untraced (act action) = act action := by
  funext s
  simp only [untraced, act]
  cases action.run s <;> rfl

theorem untraced_during (application : Value) (x : Tracer α) :
    untraced (during application x) = during application x.untraced := by
  funext s
  simp only [untraced, during, EvalM.during]
  cases x s with
  | ok a s' => rfl
  | error raised s' => simp only [Raised.error, List.foldl_append, List.foldl_cons, List.foldl_nil]

end Tracer

/-- The errors of evaluation are the traced ones with applications added. -/
def Simulation.tracing : Simulation Tracer EvalM where
  under := Eq
  rel x y := x.untraced = y
  rel_pure _ := rfl
  rel_fail _ := rfl
  rel_bind first rest := by
    rw [Tracer.untraced_bind, first]
    exact congrArg _ (funext rest)
  rel_during application _ _ same := same ▸ Tracer.untraced_during application _
  rel_calling _ _ _ _ _ same := same
  rel_act action _ := Tracer.untraced_act action
  rel_write _ _ _ same := same ▸ Tracer.untraced_act _
  rel_read _ _ _ _ same rest := by
    subst same
    rw [Tracer.untraced_bind, Tracer.untraced_act]
    exact congrArg _ (funext (rest rfl))

namespace Tracer

variable (ctx : Context) (scope : Scope)

theorem untraced_eval (term : Value) : untraced (ctx.eval scope term) = ctx.eval scope term :=
  Simulation.tracing.rel_eval ctx rfl scope term

theorem untraced_apply (callable : Value) (args : List Value) :
    untraced (ctx.apply scope callable args) = ctx.apply scope callable args :=
  Simulation.rel_apply (Simulation.tracing.levels_evalAt ctx.limit _) rfl scope callable args

end Tracer

/-! ## The mark before an application -/

/-- How often a text occurs in another one. -/
def occurrences (part text : String) : Nat :=
  text.toList.tails.countP part.toList.isPrefixOf

section Occurrences

variable {c : Char} {part : List Char}

/-- What begins with a character that a text does not have begins after it. -/
theorem countP_tails_append {text : List Char} (absent : c ∉ text) (rest : List Char) :
    (text ++ rest).tails.countP (c :: part).isPrefixOf =
      rest.tails.countP (c :: part).isPrefixOf := by
  induction text with
  | nil => rfl
  | cons d text ih =>
    have apart : c ≠ d := fun same => absent (same ▸ List.mem_cons_self)
    have none : (c :: part).isPrefixOf (d :: (text ++ rest)) = false := by
      simp [List.isPrefixOf, apart]
    rw [List.cons_append, List.tails_cons, List.countP_cons, none,
      ih fun mem => absent (List.mem_cons_of_mem d mem)]
    rfl

theorem countP_tails_eq_zero {text : List Char} (absent : c ∉ text) :
    text.tails.countP (c :: part).isPrefixOf = 0 := by
  have whole : (text ++ []).tails.countP (c :: part).isPrefixOf = 0 :=
    countP_tails_append absent []
  rwa [List.append_nil] at whole

end Occurrences

/-- Between two texts on one line a text that begins with a line break occurs once. -/
theorem occurrences_contextMark {before after : String} (here : OneLine before)
    (there : OneLine after) :
    occurrences Error.contextMark (before ++ Error.contextMark ++ after) = 1 := by
  have mark : Error.contextMark.toList = '\n' :: "  Context: ".toList := by decide
  have later : '\n' ∉ "  Context: ".toList ++ after.toList := by
    rw [List.mem_append]
    exact not_or.mpr ⟨by decide, there⟩
  have begins : ('\n' :: "  Context: ".toList).isPrefixOf
      ('\n' :: ("  Context: ".toList ++ after.toList)) = true :=
    List.isPrefixOf_iff_prefix.mpr (List.prefix_append _ _)
  rw [occurrences, String.toList_append, String.toList_append, mark, List.append_assoc,
    countP_tails_append here, List.cons_append, List.tails_cons, List.countP_cons, begins,
    countP_tails_eq_zero later]
  rfl

namespace Error

theorem occursIn_append (part before after : List Char) :
    occursIn part (before ++ (part ++ after)) = true := by
  induction before with
  | nil =>
    have begins : part.isPrefixOf (part ++ after) = true :=
      List.isPrefixOf_iff_prefix.mpr (List.prefix_append _ _)
    rw [List.nil_append]
    generalize part ++ after = text at begins
    cases text with
    | nil => exact List.isEmpty_iff.mpr (List.prefix_nil.mp (List.isPrefixOf_iff_prefix.mp begins))
    | cons c text => rw [occursIn, begins, Bool.true_or]
  | cons c before ih => rw [List.cons_append, occursIn, ih, Bool.or_true]

/-- The mark is found where an application has been added. -/
theorem isMarked_append (wording shown : String) :
    isMarked (wording ++ applicationText (some shown)) = true := by
  rw [applicationText, isMarked, String.toList_append, String.toList_append, String.toList_append,
    List.append_assoc]
  exact occursIn_append _ _ _

/-- The mark is not found on one line. -/
theorem isMarked_eq_false {detail : String} (line : OneLine detail) : isMarked detail = false := by
  have mark : contextMark.toList = '\n' :: "  Context: ".toList := by decide
  unfold OneLine at line
  rw [isMarked, mark]
  generalize "  Context: ".toList = part
  generalize detail.toList = chars at line
  induction chars with
  | nil => rfl
  | cons c text ih =>
    have apart : '\n' ≠ c := fun same => line (same ▸ List.mem_cons_self)
    have later := ih fun mem => line (List.mem_cons_of_mem c mem)
    simp [occursIn, List.isPrefixOf, apart, later]

/-- The errors to which the application is added that they came out of. -/
def TellsWhere : Error → Prop
  | type _ _ | overflow _ _ => True
  | _ => False

/-- An error that has no application yet and whose wording is on one line, if it is one to which an
application is added. -/
def Bare : Error → Prop
  | type fault named => named = none ∧ OneLine fault.message
  | overflow _ named => named = none
  | _ => True

variable {e : Error} {s : Store}

theorem Fresh.bare (fresh : e.Fresh (Vocabulary.named.Covers s)) : e.Bare := by
  cases e with
  | type fault named =>
    cases named with
    | none => exact ⟨rfl, fault.oneLine_message fresh⟩
    | some shown => cases fault <;> cases fresh
  | overflow operation named =>
    cases named with
    | none => rfl
    | some shown => cases fresh
  | _ => trivial

/-- The wording of such an error is on one line. -/
theorem Bare.oneLine_detail (bare : e.Bare) (tells : e.TellsWhere) : OneLine e.detail := by
  cases e with
  | type fault named =>
    obtain ⟨rfl, line⟩ := bare
    exact line.append (by decide)
  | overflow operation named =>
    obtain rfl := bare
    cases operation <;> decide
  | _ => cases tells

theorem append_applicationText (wording shown : String) :
    wording ++ applicationText (some shown) =
      wording ++ applicationText none ++ contextMark ++ ("while evaluating: " ++ shown) := by
  simp only [applicationText, String.append_empty, String.append_assoc]

/-- **The mark is looked for in the whole wording.**  An error whose wording has it is left alone,
and to a type error or an overflow without it the application is added after it. -/
theorem during_of_isMarked (e : Error) (application : Thunk String) :
    (isMarked e.detail = true → e.during application = e) ∧
    (e.TellsWhere → isMarked e.detail = false → (e.during application).detail =
      e.detail ++ contextMark ++ ("while evaluating: " ++ application.get)) := by
  cases e with
  | type fault named =>
    cases named with
    | none =>
      have plain : (type fault none).detail = fault.message := String.append_empty
      constructor
      · intro marked
        rw [plain] at marked
        simp only [during, marked, ↓reduceIte]
      · intro _ unmarked
        rw [plain] at unmarked
        simp only [during, unmarked, Bool.false_eq_true, ↓reduceIte]
        exact append_applicationText fault.message application.get
    | some shown =>
      refine ⟨fun _ => rfl, fun _ unmarked => ?_⟩
      exact absurd (isMarked_append _ shown) (Bool.eq_false_iff.mp unmarked)
  | overflow operation named =>
    cases named with
    | none =>
      refine ⟨fun marked => ?_, fun _ _ => append_applicationText _ _⟩
      cases operation <;> exact absurd marked (by decide)
    | some shown =>
      refine ⟨fun _ => rfl, fun _ unmarked => ?_⟩
      exact absurd (isMarked_append _ shown) (Bool.eq_false_iff.mp unmarked)
  | _ => exact ⟨fun _ => rfl, fun tells => tells.elim⟩

/-- The application is added to an error that has none. -/
theorem Bare.detail_during (bare : e.Bare) (tells : e.TellsWhere) (application : Thunk String) :
    (e.during application).detail =
      e.detail ++ contextMark ++ ("while evaluating: " ++ application.get) :=
  (e.during_of_isMarked application).2 tells (isMarked_eq_false (bare.oneLine_detail tells))

theorem label_during (application : Thunk String) : (e.during application).label = e.label := by
  cases e with
  | type fault named =>
    cases named with
    | none =>
      simp only [during]
      split <;> rfl
    | some shown => rfl
  | overflow operation named => cases named <;> rfl
  | _ => rfl

/-- Which errors these are can be seen from the word that their messages open with. -/
theorem tellsWhere_iff : e.TellsWhere ↔ e.label = "TypeError" ∨ e.label = "EvaluationError" := by
  cases e <;> simp [TellsWhere, label]

theorem tellsWhere_during (application : Thunk String) :
    (e.during application).TellsWhere ↔ e.TellsWhere := by
  rw [tellsWhere_iff, tellsWhere_iff, label_during]

end Error

/-! ## What is traced -/

section Steps

open Error (RaisedBy raisedBy_ok raisedBy_error)

variable {met : Value → Prop} {name : Symbol}

theorem SlotTable.raisedBy_get (table : SlotTable) (name : Symbol) (access : Access) :
    RaisedBy met (table.get name access) := by
  unfold get
  split
  · exact raisedBy_error trivial
  · split
    · exact raisedBy_error trivial
    · split
      · exact raisedBy_ok _
      · exact raisedBy_error trivial

/-- What a datatype does not admit is refused with the name. -/
theorem SlotTable.raisedBy_set (table : SlotTable) (value : Value) (access : Access)
    (named : met (.symbol name)) : RaisedBy met (table.set name value access) := by
  unfold set
  split
  · exact raisedBy_error trivial
  · split
    · exact raisedBy_error trivial
    · split
      · split
        · exact raisedBy_ok _
        · exact raisedBy_error ⟨name, named, rfl⟩
      · exact raisedBy_ok _

theorem SlotTable.raisedBy_define (table : SlotTable) (datatype : Option Datatype) :
    RaisedBy met (table.define name datatype) := by
  unfold define
  split
  · exact raisedBy_error trivial
  · split
    · exact raisedBy_error trivial
    · exact raisedBy_ok _

theorem SlotTable.raisedBy_defineValue (table : SlotTable) (value : Value) :
    RaisedBy met (table.defineValue name value) := by
  rw [defineValue_eq]
  split
  · exact raisedBy_error trivial
  · split
    · exact raisedBy_error trivial
    · exact raisedBy_ok _

theorem SlotTable.raisedBy_chmod (table : SlotTable) (flags : List PermissionFlag) :
    RaisedBy met ((table.chmod name flags).map Prod.snd) := by
  unfold chmod
  split
  · exact raisedBy_error trivial
  · split
    · exact raisedBy_error trivial
    · exact raisedBy_ok _

/-- A change of a class fails as the change of its slots does. -/
theorem EvalM.raisedBy_editSlots {change : SlotTable → Except Error SlotTable} {id : ClassId}
    {s : Store} (raised : RaisedBy met (change (s.slots id))) :
    RaisedBy met ((editSlots id change).outcome s) := by
  intro e refused
  have failed := of_outcome_edit refused
  split at failed
  · cases failed
  · next same =>
    cases failed
    exact raised e same

/-- **A step fails with errors as they are raised.** -/
theorem Action.raisedBy_outcome {action : Action α} (given : ∀ v ∈ action.inputs, met v)
    (s : Store) : RaisedBy met (action.run.outcome s) := by
  cases action with
  | lookup scope name =>
    simp only [run, EvalM.lookup, EvalM.outcome_ask, Store.lookup]
    split
    · exact raisedBy_error trivial
    · exact SlotTable.raisedBy_get _ name .outside
  | readSlot id name access =>
    simp only [run, EvalM.getSlot, EvalM.outcome_ask]
    exact SlotTable.raisedBy_get _ name access
  | define scope name value =>
    intro e refused
    have failed := EvalM.of_outcome_edit refused
    unfold Store.define at failed
    split at failed
    · cases failed
    · next same =>
      cases failed
      exact SlotTable.raisedBy_defineValue _ value _ same
  | assign scope name value =>
    intro e refused
    have failed := EvalM.of_outcome_edit refused
    unfold Store.assign at failed
    split at failed
    · cases failed
      trivial
    · split at failed
      · cases failed
      · next same =>
        cases failed
        exact SlotTable.raisedBy_set _ value .outside (given _ (.head _)) _ same
  | defineSlot id name datatype =>
    simp only [run]
    refine EvalM.raisedBy_editSlots ?_
    exact SlotTable.raisedBy_define _ datatype
  | writeSlot id name value access =>
    simp only [run]
    refine EvalM.raisedBy_editSlots ?_
    exact SlotTable.raisedBy_set _ value access (given _ (.tail _ (.head _)))
  | chmodSlot id name flags =>
    simp only [run]
    refine EvalM.raisedBy_editSlots ?_
    exact SlotTable.raisedBy_chmod _ flags
  | finalise id =>
    simp only [run]
    refine EvalM.raisedBy_editSlots ?_
    exact raisedBy_ok _
  | enter | newClass | pair | list | closure | print => exact raisedBy_ok _

end Steps

/-- What is traced: an error as it was raised, and applications whose texts are on one line. -/
structure Raised.Sound (raised : Raised) : Prop where
  bare : raised.cause.Bare
  within : ∀ application ∈ raised.within,
    (∃ address first rest, application = .pair address first rest) ∧ OneLine application.text

namespace Tracer

/-- Started in a store that extends `start` and has symbols as the reader makes them, a computation
ends in such a store, or what it traces is on one line. -/
def Keeps (start : Store) (x : Tracer α) (good : Store → α → Prop) : Prop :=
  ∀ s, start.Extends s → Vocabulary.named.Holds s →
    match x s with
    | .ok a s' => s.Extends s' ∧ Vocabulary.named.Holds s' ∧ good s' a
    | .error raised _ => raised.Sound

variable {start s : Store} {good : Store → α → Prop}

theorem keeps_weaken {x : Tracer α} {fair : Store → α → Prop} (keeps : Keeps start x good)
    (weaker : ∀ s a, good s a → fair s a) : Keeps start x fair := by
  intro s extended holds
  have ended := keeps s extended holds
  cases ran : x s with
  | ok a s₁ =>
    rw [ran] at ended
    exact ⟨ended.1, ended.2.1, weaker s₁ a ended.2.2⟩
  | error raised s₁ =>
    rw [ran] at ended
    exact ended

theorem keeps_bind {x : Tracer α} {f : α → Tracer β} {fair : Store → β → Prop}
    (first : Keeps start x good)
    (rest : ∀ s a, start.Extends s → good s a → Keeps s (f a) fair) :
    Keeps start (x >>= f) fair := by
  intro s extended holds
  have ended := first s extended holds
  simp only [bind, EStateM.bind]
  cases ran : x s with
  | error raised s₁ =>
    rw [ran] at ended
    exact ended
  | ok a s₁ =>
    rw [ran] at ended
    obtain ⟨further, holds, has⟩ := ended
    have later := rest s₁ a (extended.trans further) has s₁ (.refl s₁) holds
    simp only
    cases continued : f a s₁ with
    | error raised s₂ =>
      rw [continued] at later
      exact later
    | ok b s₂ =>
      rw [continued] at later
      exact ⟨further.trans later.1, later.2⟩

theorem keeps_during {address : Address} {first rest : Value} {x : Tracer α}
    (named : Vocabulary.named.Covers start (.pair address first rest))
    (keeps : Keeps start x good) :
    Keeps start (during (.pair address first rest) x) good := by
  intro s extended holds
  have ended := keeps s extended holds
  simp only [during]
  cases ran : x s with
  | ok a s₁ =>
    rw [ran] at ended
    exact ended
  | error raised s₁ =>
    rw [ran] at ended
    refine ⟨ended.bare, fun application mem => ?_⟩
    rcases List.mem_append.mp mem with inner | outer
    · exact ended.within application inner
    · obtain rfl := List.mem_singleton.mp outer
      exact ⟨⟨address, first, rest, rfl⟩, Value.oneLine_text named⟩

theorem keeps_act {action : Action α}
    (given : ∀ v ∈ action.inputs, Vocabulary.named.Covers start v) :
    Keeps start (act action) fun s a => ∀ v ∈ action.yields a, Vocabulary.named.Covers s v := by
  intro s extended holds
  have given : ∀ v ∈ action.inputs, Vocabulary.named.Covers s v :=
    fun v mem => (given v mem).extend extended
  have operands : ∀ v ∈ action.operands, Vocabulary.named.Covers s v :=
    fun v mem => given v (Action.mem_inputs_of_mem_operands mem)
  have further := action.extends_after s
  have raised := action.raisedBy_outcome given s
  have holds' := Vocabulary.holds_of_step holds ⟨α, action, operands, rfl⟩
  have yields := fun a => Vocabulary.covers_of_act (a := a) holds operands
  simp only [act]
  cases ran : action.run s with
  | ok a s₁ =>
    simp only [EvalM.after, EvalM.outcome, ran] at further holds' yields
    exact ⟨further, holds', yields a rfl⟩
  | error e s₁ =>
    simp only [EvalM.outcome, ran] at raised
    exact ⟨(raised e rfl).bare, fun _ mem => absurd mem List.not_mem_nil⟩

/-- What is traced on one line is a discipline. -/
def discipline : Discipline Tracer where
  World := Store
  Later := Store.Extends
  Covers := Vocabulary.named.Covers
  Keeps := Keeps
  later_trans := Store.Extends.trans
  covers_later := Vocabulary.Covers.extend
  covers_pair covered := covered
  covers_body covered := covered
  covers_nil := Vocabulary.named.nil
  covers_bool := Vocabulary.named.bool
  covers_integer := Vocabulary.named.integer
  covers_begin := Vocabulary.named.begin
  covers_lambda := Vocabulary.named.lambda
  keeps_pure has s extended holds := ⟨.refl s, holds, has s extended⟩
  keeps_fail fresh _ _ _ := ⟨fresh.bare, fun _ mem => absurd mem List.not_mem_nil⟩
  keeps_bind := keeps_bind
  keeps_calling keeps := keeps
  keeps_act := keeps_act
  keeps_weaken := keeps_weaken
  keeps_later extended keeps s further := keeps s (extended.trans further)

theorem names_discipline : discipline.Names := keeps_during

/-- Whatever evaluation traces is on one line. -/
theorem sound_eval (ctx : Context) (scope : Scope) {term : Value} {s' : Store} {raised : Raised}
    (holds : Vocabulary.named.Holds s) (named : Vocabulary.named.Covers s term)
    (failed : (ctx.eval scope term : Tracer Value) s = .error raised s') : raised.Sound := by
  have level := Discipline.level_evalAt names_discipline ctx.limit (ctx.limit - ctx.depth)
  have ended := level.eval ctx.grants scope named s (.refl s) holds
  rw [Context.eval, Context.level] at failed
  rw [failed] at ended
  exact ended

end Tracer

/-! ## Where what is traced comes from -/

/-- The innermost of the applications that an error came out of is one that fails with this error:
what the head of it comes to, called with the terms after the head. -/
def Raised.Stems (raised : Raised) (limit : Nat) (s' : Store) : Prop :=
  ∀ address first rest outer, raised.within = .pair address first rest :: outer →
    ∃ (ctx : Context) (scope : Scope) (callable : Value) (args : List Value) (s s₁ : Store),
      ctx.limit = limit ∧ rest.elements = .ok args ∧
      (Activation.eval ctx scope first).run s = .ok callable s₁ ∧
      (Activation.apply ctx scope callable args).run s₁ = .error raised.cause s'

namespace Tracer

theorem exists_of_bind_eq_ok {x : Tracer α} {f : α → Tracer β} {s s' : Store} {b : β}
    (ended : (x >>= f) s = .ok b s') : ∃ a s₁, x s = .ok a s₁ ∧ f a s₁ = .ok b s' := by
  simp only [bind, EStateM.bind] at ended
  split at ended
  · next a s₁ ran => exact ⟨a, s₁, ran, ended⟩
  · cases ended

theorem exists_of_bind_eq_error {x : Tracer α} {f : α → Tracer β} {s s' : Store} {raised : Raised}
    (failed : (x >>= f) s = .error raised s') :
    x s = .error raised s' ∨ ∃ a s₁, x s = .ok a s₁ ∧ f a s₁ = .error raised s' := by
  simp only [bind, EStateM.bind] at failed
  split at failed
  · next a s₁ ran => exact .inr ⟨a, s₁, ran, failed⟩
  · next ran =>
    cases failed
    exact .inl ran

theorem exists_of_during_eq_error {application : Value} {x : Tracer α} {s s' : Store}
    {raised : Raised} (failed : during application x s = .error raised s') :
    ∃ inner : Raised, x s = .error inner s' ∧
      raised = ⟨inner.cause, inner.within ++ [application]⟩ := by
  simp only [during] at failed
  split at failed
  · cases failed
  · next inner _ ran =>
    cases failed
    exact ⟨inner, ran, rfl⟩

/-- What has been raised and has not come out of an application. -/
theorem stems_nil (e : Error) (limit : Nat) (s : Store) : Raised.Stems ⟨e, []⟩ limit s :=
  fun _ _ _ _ none => nomatch none

/-- That errors come from where the trace says is a discipline, in which all values may be met. -/
def stemming (limit : Nat) : Discipline Tracer where
  World := Unit
  Later _ _ := True
  Covers _ _ := True
  Keeps _ x good := ∀ s,
    (∀ a s', x s = .ok a s' → good () a) ∧
      ∀ raised s', x s = .error raised s' → raised.Stems limit s'
  later_trans _ _ := trivial
  covers_later _ _ := trivial
  covers_pair _ := ⟨trivial, trivial⟩
  covers_body _ := trivial
  covers_nil _ := trivial
  covers_bool _ _ := trivial
  covers_integer _ _ := trivial
  covers_begin _ := trivial
  covers_lambda _ := trivial
  keeps_pure has s := by
    constructor
    · rintro _ _ ⟨⟩
      exact has () trivial
    · rintro _ _ ⟨⟩
  keeps_fail _ s := by
    constructor
    · rintro _ _ ⟨⟩
    · rintro _ _ ⟨⟩
      exact stems_nil _ _ _
  keeps_bind first rest s := by
    constructor
    · intro b s' ended
      obtain ⟨a, s₁, ran, ended⟩ := exists_of_bind_eq_ok ended
      exact (rest () a trivial ((first s).1 a s₁ ran) s₁).1 b s' ended
    · intro raised s' failed
      rcases exists_of_bind_eq_error failed with failed | ⟨a, s₁, ran, failed⟩
      · exact (first s).2 raised s' failed
      · exact (rest () a trivial ((first s).1 a s₁ ran) s₁).2 raised s' failed
  keeps_calling stems := stems
  keeps_act _ s := by
    refine ⟨fun _ _ _ _ _ => trivial, fun raised s' failed => ?_⟩
    simp only [act] at failed
    split at failed
    · cases failed
    · cases failed
      exact stems_nil _ _ _
  keeps_weaken stems weaker s := ⟨fun a s' ran => weaker () a ((stems s).1 a s' ran), (stems s).2⟩
  keeps_later _ stems := stems

/-- **Errors come from where the trace says.**  The trace is begun by the application that a term
is, when calling the value of its head fails with an error as it was raised. -/
theorem stemming_evalAt {limit left : Nat} (le : left ≤ limit) :
    (stemming limit).Level ⟨evalAt limit left, expandAt limit left⟩ := by
  induction left with
  | zero =>
    constructor
    · intro _ grants scope term _
      exact (stemming limit).keeps_fail (w := ()) trivial
    · intro _ grants scope template _
      cases template with
      | pair address first rest => exact (stemming limit).keeps_fail (w := ()) trivial
      | _ => exact (stemming limit).keeps_pure (w := ()) fun _ _ => trivial
  | succ left ih =>
    have level := ih (Nat.le_of_succ_le le)
    refine ⟨fun {_} grants scope {term} _ => ?_, fun {_} grants scope {template} _ =>
      Discipline.keeps_expandChain level grants scope trivial⟩
    cases term with
    | symbol name => exact Discipline.keeps_giving (fun _ => rfl) nofun
    | pair address first rest =>
      refine fun s => ⟨fun _ _ _ => trivial, fun raised s' failed => ?_⟩
      rcases exists_of_bind_eq_error failed with failed | ⟨callable, s₁, head, failed⟩
      · exact (level.eval (w := ()) grants scope trivial s).2 raised s' failed
      cases proper : rest.elements with
      | error e =>
        rw [proper] at failed
        cases failed
        exact stems_nil _ _ _
      | ok args =>
        rw [proper] at failed
        obtain ⟨inner, applied, rfl⟩ := exists_of_during_eq_error failed
        obtain ⟨cause, within⟩ := inner
        cases within with
        | cons application outer =>
          have stems := (Discipline.keeps_apply level grants scope (w := ()) trivial
            (fun _ _ => trivial) s₁).2 _ s' applied
          rintro address first rest _ ⟨⟩
          exact stems address first rest outer rfl
        | nil =>
          rintro _ _ _ _ ⟨⟩
          let ctx : Context := ⟨limit, limit - left, grants⟩
          have here : (ctx.level : Level Tracer) = ⟨evalAt limit left, expandAt limit left⟩ := by
            rw [Context.level, Nat.sub_sub_self (Nat.le_of_succ_le le)]
          rw [← here] at head applied
          refine ⟨ctx, scope, callable, args, s, s₁, rfl, proper, ?_, ?_⟩
          · show (ctx.eval scope first : EvalM Value) s = _
            rw [← untraced_eval, untraced, Context.eval, head]
          · show (ctx.apply scope callable args : EvalM Value) s₁ = _
            rw [← untraced_apply, untraced, Context.apply, applied]
            rfl
    | _ => exact (stemming limit).keeps_pure (w := ()) fun _ _ => trivial

theorem stems_eval (ctx : Context) (scope : Scope) {term : Value} {s s' : Store} {raised : Raised}
    (failed : (ctx.eval scope term : Tracer Value) s = .error raised s') :
    raised.Stems ctx.limit s' := by
  have level := stemming_evalAt (Nat.sub_le ctx.limit ctx.depth)
  exact (level.eval (w := ()) ctx.grants scope trivial s).2 raised s' failed

end Tracer

/-! ## The innermost application -/

namespace Error

variable {e : Error}

/-- To other errors nothing is ever added. -/
theorem placed_of_not_tellsWhere (other : ¬ e.TellsWhere) : e.Placed := by
  intro application
  cases e with
  | type | overflow => exact absurd trivial other
  | _ => rfl

/-- To an error that has no application one will be added. -/
theorem Bare.not_placed (bare : e.Bare) (tells : e.TellsWhere) : ¬ e.Placed := by
  intro placed
  have same := congrArg String.length (congrArg detail (placed (Thunk.pure "")))
  rw [bare.detail_during tells, String.length_append, String.length_append] at same
  have mark : contextMark.length = 12 := by decide
  omega

theorem foldl_during (placed : e.Placed) (applications : List Value) :
    applications.foldl (fun e application => e.during application.text) e = e := by
  induction applications with
  | nil => rfl
  | cons application applications ih => rw [List.foldl_cons, placed, ih]

end Error

namespace Raised

variable {raised : Raised}

/-- Only the innermost application may be added. -/
theorem error_eq (raised : Raised) :
    raised.error =
      match raised.within with
      | [] => raised.cause
      | application :: _ => raised.cause.during application.text := by
  obtain ⟨cause, within⟩ := raised
  cases within with
  | nil => rfl
  | cons application outer =>
    rw [error, List.foldl_cons]
    exact Error.foldl_during (cause.placed_during _) outer

theorem label_error (raised : Raised) : raised.error.label = raised.cause.label := by
  rw [error_eq]
  split
  · rfl
  · exact Error.label_during _

theorem tellsWhere_error (raised : Raised) :
    raised.error.TellsWhere ↔ raised.cause.TellsWhere := by
  rw [error_eq]
  split
  · rfl
  · exact Error.tellsWhere_during _

/-- To other errors nothing is added. -/
theorem error_of_not_tellsWhere (other : ¬ raised.error.TellsWhere) :
    raised.error = raised.cause :=
  Error.foldl_during (Error.placed_of_not_tellsWhere (raised.tellsWhere_error.not.mp other)) _

/-- What comes out of evaluation has the innermost application in its wording, once. -/
theorem Sound.detail_error (sound : raised.Sound) (placed : raised.error.Placed)
    (tells : raised.error.TellsWhere) :
    ∃ address first rest outer, raised.within = .pair address first rest :: outer ∧
      raised.error.detail = raised.cause.detail ++ Error.contextMark ++
        ("while evaluating: " ++ (Value.pair address first rest).text) ∧
      occurrences Error.contextMark raised.error.detail = 1 := by
  have tells := raised.tellsWhere_error.mp tells
  obtain ⟨cause, within⟩ := raised
  cases within with
  | nil => exact absurd placed (sound.bare.not_placed tells)
  | cons application outer =>
    obtain ⟨⟨address, first, rest, rfl⟩, line⟩ := sound.within application List.mem_cons_self
    have wording : (error ⟨cause, .pair address first rest :: outer⟩).detail =
        cause.detail ++ Error.contextMark ++
          ("while evaluating: " ++ (Value.pair address first rest).text) := by
      rw [error_eq]
      exact sound.bare.detail_during tells _
    refine ⟨address, first, rest, outer, rfl, wording, ?_⟩
    rw [wording]
    exact occurrences_contextMark (sound.bare.oneLine_detail tells) (.append (by decide) line)

end Raised

/-- **An error names the innermost application, once.**  Take a term and a store with symbols as the
reader makes them, any scope and any context, and an error that the term fails with.  Where it was
raised is told by the machine that traces it, which ends in the same store.

* A type error or an overflow has the wording it was raised with, the mark, and the innermost
  application that it came out of; and the mark occurs once.  This application is the one that
  failed: its head came to a value, and calling that value with the terms after the head failed with
  the error as it was raised, in the store in which all ended.
* Every other error is the one that was raised. -/
theorem Context.names_innermost (ctx : Context) (scope : Scope) {term : Value} {s s' : Store}
    {e : Error} (holds : Vocabulary.named.Holds s) (named : Vocabulary.named.Covers s term)
    (failed : (ctx.eval scope term : EvalM Value) s = .error e s') :
    ∃ raised : Raised, (ctx.eval scope term : Tracer Value) s = .error raised s' ∧
      e.label = raised.cause.label ∧
      (e.TellsWhere → ∃ address first rest outer,
        raised.within = .pair address first rest :: outer ∧
        e.detail = raised.cause.detail ++ Error.contextMark ++
          ("while evaluating: " ++ (Value.pair address first rest).text) ∧
        occurrences Error.contextMark e.detail = 1 ∧
        ∃ (inner : Context) (scope : Scope) (callable : Value) (args : List Value) (s₀ s₁ : Store),
          inner.limit = ctx.limit ∧ rest.elements = .ok args ∧
          (Activation.eval inner scope first).run s₀ = .ok callable s₁ ∧
          (Activation.apply inner scope callable args).run s₁ = .error raised.cause s') ∧
      (¬ e.TellsWhere → e = raised.cause) := by
  have placed := ctx.placed_eval scope term s e s' failed
  rw [← Tracer.untraced_eval, Tracer.untraced] at failed
  split at failed
  · cases failed
  · next raised s₁ traced =>
    cases failed
    have sound := Tracer.sound_eval ctx scope holds named traced
    refine ⟨raised, traced, raised.label_error, fun tells => ?_, raised.error_of_not_tellsWhere⟩
    obtain ⟨address, first, rest, outer, within, wording, once⟩ := sound.detail_error placed tells
    have stems := Tracer.stems_eval ctx scope traced address first rest outer within
    exact ⟨address, first, rest, outer, within, wording, once, stems⟩

/-- Outcomes can be compared. -/
instance decidableEqResult {ε σ α : Type} [DecidableEq ε] [DecidableEq σ] [DecidableEq α] :
    DecidableEq (EStateM.Result ε σ α)
  | .ok a s, .ok b t => decidable_of_iff _ (iff_of_eq (EStateM.Result.ok.injEq a s b t)).symm
  | .error e s, .error d t =>
    decidable_of_iff _ (iff_of_eq (EStateM.Result.error.injEq e s d t)).symm
  | .ok .., .error .. => isFalse nofun
  | .error .., .ok .. => isFalse nofun

/-- A sum with a part of what is no pair. -/
def badSum : Value :=
  .applied (.symbol (.global "+")) [.integer 1, .applied (.symbol (.global "car")) [.integer 2]]

theorem named_badSum : Vocabulary.named.Covers .initial badSum := by
  refine ⟨?_, nofun, ⟨?_, nofun, nofun⟩, nofun⟩
  · intro name same
    obtain rfl := Value.symbol.inj same
    decide +kernel
  · intro name same
    obtain rfl := Value.symbol.inj same
    decide +kernel

theorem names_innermost_badSum :
    Vocabulary.named.Holds .initial ∧ Vocabulary.named.Covers .initial badSum ∧
    (Context.eval {} globalScope badSum : EvalM Value) .initial =
      .error (.type (.pairRequired .first .integer) (some "(car 2)")) .initial ∧
    ∃ raised : Raised,
      (Context.eval {} globalScope badSum : Tracer Value) .initial = .error raised .initial ∧
      raised.within = [.applied (.symbol (.global "car")) [.integer 2], badSum] ∧
      occurrences Error.contextMark
        (Error.type (.pairRequired .first .integer) (some "(car 2)")).detail = 1 := by
  have failed : (Context.eval {} globalScope badSum : EvalM Value) .initial =
      .error (.type (.pairRequired .first .integer) (some "(car 2)")) .initial := by
    decide +kernel
  refine ⟨Store.named_initial, named_badSum, failed, ?_⟩
  obtain ⟨raised, traced, -, tells, -⟩ :=
    Context.names_innermost {} globalScope Store.named_initial named_badSum failed
  obtain ⟨-, -, -, -, -, -, once, -⟩ := tells trivial
  have known : (Context.eval {} globalScope badSum : Tracer Value) .initial =
      .error ⟨.type (.pairRequired .first .integer) none,
        [.applied (.symbol (.global "car")) [.integer 2], badSum]⟩ .initial := by decide +kernel
  obtain rfl := (EStateM.Result.error.inj (known.symm.trans traced)).1
  exact ⟨_, traced, rfl, once⟩

end GuardedLisp
