import GuardedLisp.Proofs.Run
import Mathlib.Tactic.ByContra

/-!
# Activations

Evaluation is a mutual recursion: a term is evaluated, a value is called, a method of a class is
called, a template is expanded, and each of these starts others.  An `Activation` is one of them
with all that it is given.  Its body says what it does, and leaves open how the activations that it
starts are answered.

Answered by evaluation itself, the bodies are evaluation.  Answered by a table that does not know
everything, a body may come to nothing, and then there is an activation that it cannot do without.
So what an activation starts can be spoken of without a second evaluator.

## Main definitions

* `Activation`, `Activation.body`: what evaluation may be in the middle of, and what it does there
* `Activation.run`: what an activation comes to in evaluation
* `Activation.Leads`: the activations that another one may start
* `Partial`: the machine for answers that may be missing
* `Activation.Asks`: one activation cannot do without the end of another one

## Main results

* `Activation.run_eq_body`: evaluation solves the recursion
* `Simulation.rel_body`: bodies are related if the activations that they may start are
* `Activation.leads_of_asks`: what an activation cannot do without is among what it may start
-/

namespace GuardedLisp

open Machine (act fail ofExcept during)

/-- What evaluation may be in the middle of. -/
inductive Activation where
  /-- Evaluating a term. -/
  | eval (ctx : Context) (scope : Scope) (term : Value)
  /-- Calling a value with the terms of its arguments. -/
  | apply (ctx : Context) (scope : Scope) (callable : Value) (args : List Value)
  /-- Calling what a slot of a class holds as a method of the class. -/
  | call (ctx : Context) (scope : Scope) (id : ClassId) (callable : Value) (args : List Value)
  /-- Expanding a template. -/
  | expand (ctx : Context) (scope : Scope) (template : Value)
deriving DecidableEq

namespace Activation

/-- The context of an activation. -/
def ctx : Activation → Context
  | eval ctx _ _ => ctx
  | apply ctx _ _ _ => ctx
  | call ctx _ _ _ _ => ctx
  | expand ctx _ _ => ctx

/-- What an activation comes to in evaluation. -/
def run : Activation → EvalM Value
  | eval ctx scope term => ctx.eval scope term
  | apply ctx scope callable args => ctx.apply scope callable args
  | call ctx scope id callable args => ctx.call scope id callable args
  | expand ctx scope template => ctx.expand scope template

end Activation

section Bodies

variable {m : Type → Type} [Machine m] (start : Activation → m Value)

/-- The level at which every evaluation and every expansion starts an activation. -/
def Context.starting (ctx : Context) : Level m where
  eval grants scope term := start (.eval { ctx with grants } scope term)
  expand grants scope template := start (.expand { ctx with grants } scope template)

namespace Activation

/-- What is done with a term once it has been entered. -/
def evalBody (ctx : Context) (scope : Scope) : Value → m Value
  | .symbol name => act (.lookup scope name)
  | .pair address first rest => do
    let callable ← start (.eval ctx scope first)
    let args ← ofExcept rest.elements
    during (.pair address first rest) (start (.apply ctx scope callable args))
  | v => return v

/-- What a class does with the terms of its arguments. -/
def instanceBody (ctx : Context) (scope : Scope) (id : ClassId) : List Value → m Value
  | [] => fail (.arity (.atLeast 1) 0 none)
  | selector :: args => do
    let name ← (ctx.starting start).selectSlot ctx.grants scope selector
    let value ← act (.readSlot id name (ctx.access id))
    if value.isCalledWith args then start (.call ctx scope id value args)
    else if args.isEmpty then return value
    else fail (.notCallable (.slot name.name id value.text value.kind))

/-- What a value does with the terms of its arguments. -/
def applyBody (ctx : Context) (scope : Scope) (callable : Value) (args : List Value) : m Value :=
  match callable with
  | .builtin op => (ctx.starting start).applyBuiltin ctx.grants scope op args
  | .closure _ .function params body home =>
    (ctx.starting start).applyFunction ctx.grants scope params body home args
  | .closure _ .transformer params body home =>
    (ctx.starting start).applyTransformer ctx.grants scope params body home args
  | .classObject id => instanceBody start ctx scope id args
  | v => fail (.notCallable (.value v.text v.kind))

/-- What an activation does, given how the activations that it starts are answered. -/
def body : Activation → m Value
  | eval ctx scope term =>
    match ctx.enter with
    | .ok ctx => evalBody start ctx scope term
    | .error e => fail e
  | apply ctx scope callable args => applyBody start ctx scope callable args
  | call ctx scope id callable args => do
    let scope ← act (.enter scope)
    act (.define scope .self (.classObject id))
    start (.apply (ctx.grant id) scope callable args)
  | expand ctx scope template =>
    match template with
    | .pair address first rest =>
      match ctx.enter with
      | .ok ctx => (ctx.starting start).expandChain ctx.grants scope (.pair address first rest)
      | .error e => fail e
    | v => return v

end Activation

end Bodies

/-! ## Evaluation solves the recursion -/

namespace Context

/-- A context is entered only if there is a level left, and takes it. -/
theorem enter_eq_ok {ctx ctx' : Context} (h : ctx.enter = .ok ctx') :
    ctx.depth < ctx.limit ∧ ctx' = { ctx with depth := ctx.depth + 1 } := by
  unfold enter at h
  split at h
  · cases h
  · next room => exact ⟨Nat.lt_of_not_le room, (Except.ok.inj h).symm⟩

/-- A context that may not be entered has no level left. -/
theorem enter_eq_error {ctx : Context} {e : Error} (h : ctx.enter = .error e) :
    e = .tooDeep ctx.limit ∧ ctx.limit - ctx.depth = 0 := by
  unfold enter at h
  split at h
  · next full => exact ⟨(Except.error.inj h).symm, Nat.sub_eq_zero_of_le full⟩
  · cases h

/-- How many levels may still be entered. -/
def left (ctx : Context) : Nat := ctx.limit - ctx.depth

theorem left_of_enter {ctx ctx' : Context} (h : ctx.enter = .ok ctx') :
    ctx.left = ctx'.left + 1 := by
  obtain ⟨room, rfl⟩ := enter_eq_ok h
  simp only [left]
  omega

theorem starting_run (ctx : Context) : ctx.starting Activation.run = ctx.level := rfl

theorem eval_eq_body (ctx : Context) (scope : Scope) (term : Value) :
    (ctx.eval scope term : EvalM Value) = (Activation.eval ctx scope term).body Activation.run := by
  simp only [Activation.body, eval, level]
  cases entered : ctx.enter with
  | ok ctx' =>
    -- The evaluator takes a level off where the context adds one.
    have room := left_of_enter entered
    obtain ⟨-, rfl⟩ := enter_eq_ok entered
    simp only [left] at room
    rw [room]
    cases term <;> rfl
  | error e =>
    obtain ⟨rfl, none⟩ := enter_eq_error entered
    rw [none]
    rfl

theorem apply_eq_body (ctx : Context) (scope : Scope) (callable : Value) (args : List Value) :
    (ctx.apply scope callable args : EvalM Value) =
      (Activation.apply ctx scope callable args).body Activation.run := by
  simp only [Activation.body, Activation.applyBody, starting_run, apply]
  cases callable with
  | closure address kind params body home => cases kind <;> (unfold Level.apply; rfl)
  | classObject id =>
    cases args <;> (unfold Level.apply; rfl)
  | _ => unfold Level.apply; rfl

theorem expand_eq_body (ctx : Context) (scope : Scope) (template : Value) :
    (ctx.expand scope template : EvalM Value) =
      (Activation.expand ctx scope template).body Activation.run := by
  simp only [Activation.body, expand, level]
  cases template with
  | pair address first rest =>
    cases entered : ctx.enter with
    | ok ctx' =>
      have room := left_of_enter entered
      obtain ⟨-, rfl⟩ := enter_eq_ok entered
      simp only [left] at room
      rw [room]
      rfl
    | error e =>
      obtain ⟨rfl, none⟩ := enter_eq_error entered
      rw [none]
      rfl
  | _ => cases ctx.limit - ctx.depth <;> rfl

end Context

/-- **Evaluation solves the recursion**: an activation comes to what its body comes to, if all that
it starts comes to what evaluation gives. -/
theorem Activation.run_eq_body (a : Activation) : a.run = a.body Activation.run := by
  cases a with
  | eval ctx scope term => exact ctx.eval_eq_body scope term
  | apply ctx scope callable args => exact ctx.apply_eq_body scope callable args
  | call ctx scope id callable args => rfl
  | expand ctx scope template => exact ctx.expand_eq_body scope template

/-! ## What an activation may start -/

/-- The activations that another one may start.  A term or a template takes a level; a call takes
none, but a selector if it is of a class.  Grants are only ever added. -/
inductive Activation.Leads : Activation → Activation → Prop where
  | head {ctx ctx' : Context} {scope : Scope} {term first : Value} :
    ctx.enter = .ok ctx' → Leads (.eval ctx scope term) (.eval ctx' scope first)
  | application {ctx ctx' : Context} {scope : Scope} {term callable : Value} {args : List Value} :
    ctx.enter = .ok ctx' → Leads (.eval ctx scope term) (.apply ctx' scope callable args)
  | unquoted {ctx ctx' : Context} {scope scope' : Scope} {template term : Value}
      {grants : Grants} :
    ctx.enter = .ok ctx' → ctx'.grants <:+ grants →
      Leads (.expand ctx scope template) (.eval { ctx' with grants } scope' term)
  | part {ctx ctx' : Context} {scope scope' : Scope} {template inner : Value} {grants : Grants} :
    ctx.enter = .ok ctx' → ctx'.grants <:+ grants →
      Leads (.expand ctx scope template) (.expand { ctx' with grants } scope' inner)
  | term {ctx : Context} {scope scope' : Scope} {callable term : Value} {args : List Value}
      {grants : Grants} :
    ctx.grants <:+ grants →
      Leads (.apply ctx scope callable args) (.eval { ctx with grants } scope' term)
  | template {ctx : Context} {scope scope' : Scope} {callable template : Value}
      {args : List Value} {grants : Grants} :
    ctx.grants <:+ grants →
      Leads (.apply ctx scope callable args) (.expand { ctx with grants } scope' template)
  | method {ctx : Context} {scope : Scope} {id : ClassId} {callable selector value : Value}
      {args : List Value} :
    Leads (.apply ctx scope callable (selector :: args)) (.call ctx scope id value args)
  | granted {ctx : Context} {scope scope' : Scope} {id : ClassId} {callable : Value}
      {args : List Value} :
    Leads (.call ctx scope id callable args) (.apply (ctx.grant id) scope' callable args)

namespace Simulation

variable {m n : Type → Type} [Machine m] [Machine n]

/-- A simulation under grants that include some given ones. -/
def above (R : Simulation m n) (base : Grants) : Simulation m n where
  under g h := R.under g h ∧ base <:+ g
  rel := R.rel
  rel_pure := R.rel_pure
  rel_fail := R.rel_fail
  rel_bind := R.rel_bind
  rel_during := R.rel_during
  rel_calling callable args _ _ under := R.rel_calling callable args under.1
  rel_act := R.rel_act
  rel_write id name value under := R.rel_write id name value under.1
  rel_read id name _ _ under rest :=
    R.rel_read id name under.1 fun granted => rest ⟨granted, under.2.trans (List.suffix_cons id _)⟩

section Bodies

variable (R : Simulation m n) (refl : ∀ g, R.under g g) (eq : ∀ {g h}, R.under g h → g = h)
  {start : Activation → m Value} {start' : Activation → n Value}

include eq in
theorem levels_starting (ctx : Context)
    (evals : ∀ grants scope term, ctx.grants <:+ grants →
      R.rel (start (.eval { ctx with grants } scope term))
        (start' (.eval { ctx with grants } scope term)))
    (expands : ∀ grants scope template, ctx.grants <:+ grants →
      R.rel (start (.expand { ctx with grants } scope template))
        (start' (.expand { ctx with grants } scope template))) :
    (R.above ctx.grants).Levels (ctx.starting start) (ctx.starting start') := by
  constructor
  · rintro g h scope term ⟨under, more⟩
    obtain rfl := eq under
    exact evals g scope term more
  · rintro g h scope template ⟨under, more⟩
    obtain rfl := eq under
    exact expands g scope template more

include refl eq

theorem rel_applyBody (ctx : Context) (scope : Scope) (callable : Value) (args : List Value)
    (starts : ∀ b, Activation.Leads (.apply ctx scope callable args) b →
      R.rel (start b) (start' b)) :
    R.rel (Activation.applyBody start ctx scope callable args)
      (Activation.applyBody start' ctx scope callable args) := by
  have levels : (R.above ctx.grants).Levels (ctx.starting start) (ctx.starting start') :=
    R.levels_starting eq ctx (fun _ _ _ more => starts _ (.term more))
      (fun _ _ _ more => starts _ (.template more))
  have under : (R.above ctx.grants).under ctx.grants ctx.grants :=
    ⟨refl ctx.grants, List.suffix_refl _⟩
  unfold Activation.applyBody
  split
  · exact rel_applyBuiltin levels under scope _ args
  · exact rel_applyFunction levels under scope _ _ _ args
  · exact rel_applyTransformer levels under scope _ _ _ args
  · next id =>
    cases args with
    | nil => exact R.rel_fail _
    | cons selector args =>
      refine R.rel_bind (rel_selectSlot levels under scope selector) fun name => ?_
      refine R.rel_read id name (refl ctx.grants) fun _ value => ?_
      split
      · exact starts _ .method
      · split
        · exact R.rel_pure _
        · exact R.rel_fail _
  · exact R.rel_fail _

/-- The bodies of an activation are related if all that it may start is answered by related
computations. -/
theorem rel_body (a : Activation) (starts : ∀ b, a.Leads b → R.rel (start b) (start' b)) :
    R.rel (a.body start) (a.body start') := by
  cases a with
  | eval ctx scope term =>
    simp only [Activation.body]
    cases entered : ctx.enter with
    | error e => exact R.rel_fail e
    | ok ctx' =>
      cases term with
      | symbol name => exact R.rel_act _ rfl
      | pair address first rest =>
        refine R.rel_bind (starts _ (.head entered)) fun callable => ?_
        refine R.rel_bind (R.rel_ofExcept _) fun args => ?_
        exact R.rel_during _ (starts _ (.application entered))
      | _ => exact R.rel_pure _
  | apply ctx scope callable args => exact R.rel_applyBody refl eq ctx scope callable args starts
  | call ctx scope id callable args =>
    refine R.rel_bind (R.rel_act _ rfl) fun frame => ?_
    exact R.rel_bind (R.rel_act _ rfl) fun _ => starts _ .granted
  | expand ctx scope template =>
    cases template with
    | pair address first rest =>
      simp only [Activation.body]
      cases entered : ctx.enter with
      | error e => exact R.rel_fail e
      | ok ctx' =>
        have levels : (R.above ctx'.grants).Levels (ctx'.starting start) (ctx'.starting start') :=
          R.levels_starting eq ctx' (fun _ _ _ more => starts _ (.unquoted entered more))
            (fun _ _ _ more => starts _ (.part entered more))
        exact rel_expandChain levels ⟨refl ctx'.grants, List.suffix_refl _⟩ scope _
    | _ => exact R.rel_pure _

end Bodies

end Simulation

/-! ## Answers that may be missing -/

/-- Computations that come to nothing if an answer is missing. -/
def Partial (α : Type) : Type := Store → Option (EStateM.Result Error Store α)

namespace Partial

/-- Goes on with the value of a computation. -/
def bind (x : Partial α) (f : α → Partial β) : Partial β := fun s =>
  match x s with
  | some (.ok a s) => f a s
  | some (.error e s) => some (.error e s)
  | none => none

/-- Names the application that an error of a computation came out of. -/
def during (application : Value) (x : Partial α) : Partial α := fun s =>
  match x s with
  | some (.ok a s) => some (.ok a s)
  | some (.error e s) => some (.error (e.during application.text) s)
  | none => none

instance : Machine Partial where
  pure a := fun s => some (.ok a s)
  bind := bind
  act action := fun s => some (action.run s)
  fail e := fun s => some (.error e s)
  during := during
  calling _ x := x

/-- A step is always taken. -/
theorem act_bind (action : Action α) (f : α → Partial β) (s : Store) :
    (act action >>= f : Partial β) s =
      match action.run s with
      | .ok a s => f a s
      | .error e s => some (.error e s) := by
  show Partial.bind (fun s => some (action.run s)) f s = _
  simp only [Partial.bind]
  cases action.run s <;> rfl

/-- A computation that comes to what another one does, whatever that is. -/
def Total (x : Partial α) (y : EvalM α) : Prop := ∀ s, x s = some (y s)

/-- A computation that comes to what another one does, if it comes to anything. -/
def Sound (x : Partial α) (y : EvalM α) : Prop := ∀ s r, x s = some r → y s = r

theorem Total.bind {x : Partial α} {y : EvalM α} {f : α → Partial β} {g : α → EvalM β}
    (first : x.Total y) (rest : ∀ a, (f a).Total (g a)) : Total (x.bind f) (y >>= g) := by
  intro s
  simp only [Partial.bind, first s, Bind.bind, EStateM.bind]
  cases y s with
  | ok a s' => exact rest a s'
  | error e s' => rfl

theorem Total.during (application : Value) {x : Partial α} {y : EvalM α} (same : x.Total y) :
    (x.during application).Total (y.during application) := by
  intro s
  simp only [Partial.during, same s, EvalM.during]
  cases y s <;> rfl

theorem Sound.bind {x : Partial α} {y : EvalM α} {f : α → Partial β} {g : α → EvalM β}
    (first : x.Sound y) (rest : ∀ a, (f a).Sound (g a)) : Sound (x.bind f) (y >>= g) := by
  intro s r found
  simp only [Partial.bind] at found
  simp only [Bind.bind, EStateM.bind]
  cases outcome : x s with
  | none =>
    rw [outcome] at found
    cases found
  | some ended =>
    rw [outcome] at found
    rw [first s ended outcome]
    cases ended with
    | ok a s' => exact rest a s' r found
    | error e s' => exact Option.some.inj found

theorem Sound.during (application : Value) {x : Partial α} {y : EvalM α} (same : x.Sound y) :
    (x.during application).Sound (y.during application) := by
  intro s r found
  simp only [Partial.during] at found
  simp only [EvalM.during]
  cases outcome : x s with
  | none =>
    rw [outcome] at found
    cases found
  | some ended =>
    rw [outcome] at found
    rw [same s ended outcome]
    cases ended <;> exact Option.some.inj found

end Partial

/-- Computations that come to what others do. -/
def Simulation.answering : Simulation Partial EvalM where
  under g h := g = h
  rel := Partial.Total
  rel_pure _ _ := rfl
  rel_fail _ _ := rfl
  rel_bind := .bind
  rel_during := .during
  rel_calling _ _ _ _ _ same := same
  rel_act _ _ _ := rfl
  rel_write _ _ _ under _ := by
    subst under
    rfl
  rel_read _ _ _ _ under rest := by
    subst under
    exact .bind (fun _ => rfl) (rest rfl)

/-- Computations that come to what others do, if to anything. -/
def Simulation.bounding : Simulation Partial EvalM where
  under g h := g = h
  rel := Partial.Sound
  rel_pure _ _ _ found := Option.some.inj found
  rel_fail _ _ _ found := Option.some.inj found
  rel_bind := .bind
  rel_during := .during
  rel_calling _ _ _ _ _ same := same
  rel_act _ _ _ _ found := Option.some.inj found
  rel_write _ _ _ under _ _ found := by
    subst under
    exact Option.some.inj found
  rel_read _ _ _ _ under rest := by
    subst under
    exact .bind (fun _ _ found => Option.some.inj found) (rest rfl)

namespace Activation

/-- If all that an activation may start is answered as evaluation does, so is the activation. -/
theorem body_eq_run {a : Activation} {answers : Activation → Partial Value}
    (known : ∀ b, a.Leads b → ∀ s, answers b s = some (b.run s)) (s : Store) :
    a.body answers s = some (a.run s) := by
  rw [run_eq_body]
  exact Simulation.answering.rel_body (fun _ => rfl) id a known s

/-- If no answer is other than that of evaluation, the activation is not answered otherwise. -/
theorem run_eq_of_body {a : Activation} {answers : Activation → Partial Value}
    (known : ∀ b s r, answers b s = some r → b.run s = r) {s : Store}
    {r : EStateM.Result Error Store Value} (found : a.body answers s = some r) : a.run s = r := by
  rw [run_eq_body]
  exact Simulation.bounding.rel_body (fun _ => rfl) id a (fun b _ => known b) s r found

/-- The answers of evaluation, except for one activation in one store. -/
def answersWithout (b : Activation) (s' : Store) : Activation → Partial Value :=
  fun c t => if c = b ∧ t = s' then none else some (c.run t)

/-- An activation in one store cannot do without the end of another one in another store: it starts
the other one, and waits for it. -/
def Asks (a : Activation) (s : Store) (b : Activation) (s' : Store) : Prop :=
  a.body (answersWithout b s') s = none

/-- What an activation starts is among what it may start. -/
theorem leads_of_asks {a b : Activation} {s s' : Store} (asks : a.Asks s b s') : a.Leads b := by
  -- An activation that is not started is not missed in the table.
  by_contra apart
  have answered : a.body (answersWithout b s') s = some (a.run s) := by
    refine body_eq_run (fun c leads t => if_neg ?_) s
    rintro ⟨rfl, -⟩
    exact apart leads
  rw [Asks, answered] at asks
  cases asks

theorem answersWithout_self (b : Activation) (s' : Store) : answersWithout b s' b s' = none :=
  if_pos ⟨rfl, rfl⟩

/-- An application calls what its head has come to, with the terms after it. -/
theorem asks_application {ctx ctx' : Context} {scope : Scope} {address : Address}
    {first rest callable : Value} {args : List Value} {s s' : Store}
    (entered : ctx.enter = .ok ctx')
    (head : (eval ctx' scope first).run s = .ok callable s') (proper : rest.elements = .ok args) :
    (eval ctx scope (.pair address first rest)).Asks s (apply ctx' scope callable args) s' := by
  have known : answersWithout (apply ctx' scope callable args) s' (eval ctx' scope first) s =
      some (.ok callable s') := by
    rw [answersWithout, if_neg (fun same => nomatch same.1), head]
  simp only [Asks, body, entered, evalBody, proper]
  show Partial.bind _ _ s = none
  simp only [Partial.bind, known]
  show Partial.during _ _ s' = none
  simp only [Partial.during, answersWithout_self]

/-- A class that is given a name starts the method that the slot of that name holds. -/
theorem asks_method {ctx : Context} {scope : Scope} {id : ClassId} {name : Symbol} {value : Value}
    {args : List Value} {s : Store} (read : (s.slots id).get name (ctx.access id) = .ok value)
    (called : value.isCalledWith args = true) :
    (apply ctx scope (.classObject id) (.symbol name :: args)).Asks s
      (call ctx scope id value args) s := by
  show (act (.readSlot id name (ctx.access id)) >>= _ : Partial Value) s = none
  simp only [Partial.act_bind, Action.run, EvalM.getSlot, EvalM.ask, read, called, if_true]
  exact answersWithout_self _ s

/-- The frame with `self` is always made, and the classes stay as they are. -/
theorem enter_define_self (scope : Scope) (id : ClassId) (s : Store) :
    ∃ scope' between s', EvalM.enter scope s = .ok scope' between ∧
      EvalM.define scope' .self (.classObject id) between = .ok () s' ∧ s'.classes = s.classes := by
  let inner := (s.newFrame scope.chain).1
  let entered := (s.newFrame scope.chain).2
  have fresh : entered.frame inner.frame = {} := by
    simp [entered, inner, Store.newFrame, Store.frame]
  have defined : ∃ table, (entered.frame inner.frame).defineValue .self (.classObject id) =
      .ok table := by
    rw [fresh]
    exact ⟨_, rfl⟩
  obtain ⟨table, defined⟩ := defined
  refine ⟨inner, entered, entered.setFrame inner.frame table, rfl, ?_, rfl⟩
  simp only [EvalM.define, EvalM.edit, Store.define, defined]

/-- A method is called in a new frame, in a store with the same classes. -/
theorem asks_granted (ctx : Context) (scope : Scope) (id : ClassId) (callable : Value)
    (args : List Value) (s : Store) :
    ∃ scope' s', s'.classes = s.classes ∧
      (call ctx scope id callable args).Asks s (apply (ctx.grant id) scope' callable args) s' ∧
      (call ctx scope id callable args).run s =
        (apply (ctx.grant id) scope' callable args).run s' := by
  obtain ⟨scope', between, s', entered, defined, classes⟩ := enter_define_self scope id s
  refine ⟨scope', s', classes, ?_, ?_⟩
  · simp only [Asks, body, Partial.act_bind, Action.run, entered, defined]
    exact answersWithout_self _ _
  · simp only [run, Context.call, Machine.act, Action.run, bind, EStateM.bind, entered, defined]

end Activation

end GuardedLisp
