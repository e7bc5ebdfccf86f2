import GuardedLisp.Interpreter
import GuardedLisp.Proofs.Run

/-!
# The limit on nesting

The limit only ever turns an outcome into the error that it has been reached.  An evaluation that
ends in any other way is settled: with more levels it ends in the same way and in the same store.
No form looks at the limit or catches an error, so this is a simulation of the levels with fewer
left by those with more, by induction on the levels that are left.

## Main definitions

* `Settled`: an outcome other than that the limit has been reached
* `Interpreter.withLimit`: an interpreter with another limit

## Main results

* `Simulation.levels_of_le`: more levels do what fewer levels do, if that is settled
* `settled_independent_of_limit`: so do evaluation and the evaluation of a text
-/

namespace GuardedLisp

/-- An outcome other than that the limit on nesting has been reached. -/
def Settled (outcome : Except Error α) : Prop := ∀ limit, outcome ≠ .error (.tooDeep limit)

@[simp] theorem settled_ok (a : α) : Settled (.ok a) := nofun

theorem settled_of_toOption {outcome : Except Error α} {a : α}
    (value : outcome.toOption = some a) : Settled outcome := by
  cases outcome with
  | ok found => exact settled_ok found
  | error e => cases value

@[simp] theorem settled_error {e : Error} :
    Settled (.error e : Except Error α) ↔ ∀ limit, e ≠ .tooDeep limit := by
  simp [Settled]

/-- The second computation does what the first does, if that is settled. -/
def EvalM.SettledBy (x y : EvalM α) : Prop := ∀ s, Settled (x.outcome s) → y s = x s

namespace EvalM.SettledBy

theorem bind {x y : EvalM α} {f g : α → EvalM β} (first : x.SettledBy y)
    (rest : ∀ a, (f a).SettledBy (g a)) : SettledBy (x >>= f) (y >>= g) := by
  intro s settled
  have begun := first s
  simp only [SettledBy, EvalM.outcome, EStateM.bind, Bind.bind] at begun rest settled ⊢
  cases outcome : x s with
  | ok a s' =>
    rw [outcome] at begun settled
    rw [begun (settled_ok a)]
    exact rest a s' settled
  | error e s' =>
    rw [outcome] at begun settled
    rw [begun (settled_error.mpr (settled_error.mp settled))]

/-- An error keeps its kind when the application that it came out of is named. -/
theorem during (application : Value) {x y : EvalM α} (same : x.SettledBy y) :
    (x.during application).SettledBy (y.during application) := by
  intro s settled
  have inner := same s
  simp only [EvalM.outcome, EvalM.during] at inner settled ⊢
  cases outcome : x s with
  | ok a s' =>
    rw [outcome] at inner
    rw [inner (settled_ok a)]
  | error e s' =>
    rw [outcome] at inner settled
    rw [inner (settled_error.mpr fun limit tooDeep => ?_)]
    subst tooDeep
    exact settled limit rfl

end EvalM.SettledBy

/-- Computations of which the second does what the first does, if that is settled. -/
def Simulation.settling : Simulation EvalM EvalM where
  under g h := g = h
  rel := EvalM.SettledBy
  rel_pure _ _ _ := rfl
  rel_fail _ _ _ := rfl
  rel_bind := .bind
  rel_during application _ _ := .during application
  rel_calling _ _ _ _ _ same := same
  rel_act _ _ _ _ := rfl
  rel_write _ _ _ under _ _ := by
    subst under
    rfl
  rel_read _ _ _ _ under rest := by
    subst under
    exact .bind (fun _ _ => rfl) (rest rfl)

/-- More levels do what fewer levels do, if that is settled.  The limits that errors name do not
matter. -/
theorem Simulation.levels_of_le (limit limit' : Nat) {left left' : Nat} (le : left ≤ left') :
    settling.Levels (⟨evalAt limit left, expandAt limit left⟩ : Level EvalM)
      ⟨evalAt limit' left', expandAt limit' left'⟩ := by
  -- Induction on the fewer levels; the others always have one to spare.
  induction left generalizing left' with
  | zero =>
    constructor
    · intro g h scope term _ s settled
      exact absurd rfl (settled limit)
    · intro g h scope template _
      cases template with
      | pair address first rest =>
        intro s settled
        exact absurd rfl (settled limit)
      | _ => cases left' <;> exact fun s settled => rfl
  | succ left ih =>
    obtain ⟨more, rfl⟩ : ∃ more, left' = more + 1 := ⟨left' - 1, by omega⟩
    have levels := @ih more (by omega)
    constructor
    · intro g h scope term under
      exact rel_evalTerm levels under scope term
    · intro g h scope template under
      exact rel_expandChain levels under scope template

/-- A settled evaluation is the same in every context with the same grants and at least as many
levels left. -/
theorem Context.eval_eq_of_settled (ctx ctx' : Context) (grants : ctx.grants = ctx'.grants)
    (room : ctx.limit - ctx.depth ≤ ctx'.limit - ctx'.depth) {scope : Scope} {term : Value}
    {s : Store} (settled : Settled (EvalM.outcome (ctx.eval scope term) s)) :
    (ctx'.eval scope term : EvalM Value) s = (ctx.eval scope term : EvalM Value) s :=
  (Simulation.levels_of_le ctx.limit ctx'.limit room).eval scope term grants s settled

namespace Interpreter

/-- The interpreter with another limit on nesting. -/
def withLimit (i : Interpreter) (limit : Nat) : Interpreter := { i with limit }

/-- Reading does not look at the limit. -/
theorem readAll_withLimit (i : Interpreter) (limit : Nat) (source : String) :
    (i.withLimit limit).readAll source =
      ((i.readAll source).1, (i.readAll source).2.withLimit limit) := by
  simp only [readAll, accept, withLimit]
  split <;> rfl

/-- What a computation ends with, and the interpreter after it. -/
theorem perform_eq (i : Interpreter) (x : EvalM α) :
    i.perform x = (x.outcome i.store, { i with store := x.after i.store }) := by
  obtain ⟨symbols, store, limit⟩ := i
  simp only [perform, EvalM.outcome, EvalM.after]
  cases x store <;> rfl

theorem limit_readAll (i : Interpreter) (source : String) :
    (i.readAll source).2.limit = i.limit := by
  simp only [readAll, accept]
  split
  · rfl
  · rw [perform_eq]

theorem limit_eval (i : Interpreter) (form : Value) : (i.eval form).2.limit = i.limit := by
  rw [eval, perform_eq]

/-- A form that is settled is settled with a greater limit, in the same way. -/
theorem eval_withLimit {i : Interpreter} {limit : Nat} (more : i.limit ≤ limit) (form : Value)
    (settled : Settled (i.eval form).1) :
    (i.withLimit limit).eval form = ((i.eval form).1, (i.eval form).2.withLimit limit) := by
  unfold eval at settled ⊢
  rw [perform_eq] at settled
  have same := Context.eval_eq_of_settled i.context (i.withLimit limit).context rfl
    (Nat.sub_le_sub_right more 0) settled
  rw [perform_eq, perform_eq]
  simp only [withLimit, EvalM.outcome, EvalM.after] at same ⊢
  rw [same]

theorem evalForms_withLimit {i : Interpreter} {limit : Nat} (more : i.limit ≤ limit)
    (last : Value) (forms : List Value) (settled : Settled (i.evalForms last forms).1) :
    (i.withLimit limit).evalForms last forms =
      ((i.evalForms last forms).1, (i.evalForms last forms).2.withLimit limit) := by
  -- Induction on the forms, from any interpreter: each form leaves another store.
  induction forms generalizing i last with
  | nil => rfl
  | cons form forms ih =>
    have limitAfter := limit_eval i form
    have once := eval_withLimit more form
    unfold evalForms at settled ⊢
    cases outcome : i.eval form with
    | mk first next =>
      rw [outcome] at settled limitAfter once
      cases first with
      | ok value =>
        have still : next.limit ≤ limit := Nat.le_trans (Nat.le_of_eq limitAfter) more
        rw [once (settled_ok value)]
        exact ih still value settled
      | error e => rw [once settled]

/-- A text whose evaluation is settled is evaluated in the same way with a greater limit. -/
theorem evalSource_withLimit {i : Interpreter} {limit : Nat} (more : i.limit ≤ limit)
    (source : String) (settled : Settled (i.evalSource source).1) :
    (i.withLimit limit).evalSource source =
      ((i.evalSource source).1, (i.evalSource source).2.withLimit limit) := by
  have limitAfter := limit_readAll i source
  unfold evalSource at settled ⊢
  rw [readAll_withLimit]
  cases outcome : i.readAll source with
  | mk read next =>
    rw [outcome] at settled limitAfter
    cases read with
    | ok forms =>
      have still : next.limit ≤ limit := Nat.le_trans (Nat.le_of_eq limitAfter) more
      exact evalForms_withLimit still .nil forms settled
    | error e => rfl

end Interpreter

/-- **The limit only ever cuts off.**  Unless an evaluation ends with the error that the limit has
been reached, it ends with the same value or error, in the same store and with the same output,
if the limit is raised; if limit and depth are changed together, so that as many levels are left;
and, for the evaluation of all forms of a text, if the limit of the interpreter is raised. -/
theorem settled_independent_of_limit :
    (∀ (ctx : Context) (limit : Nat) (scope : Scope) (term : Value) (s : Store),
      ctx.limit ≤ limit → Settled (EvalM.outcome (ctx.eval scope term) s) →
        ({ ctx with limit }.eval scope term : EvalM Value) s =
          (ctx.eval scope term : EvalM Value) s) ∧
    (∀ (ctx ctx' : Context) (scope : Scope) (term : Value) (s : Store),
      ctx.grants = ctx'.grants → ctx.limit - ctx.depth = ctx'.limit - ctx'.depth →
        Settled (EvalM.outcome (ctx.eval scope term) s) →
          (ctx'.eval scope term : EvalM Value) s = (ctx.eval scope term : EvalM Value) s) ∧
    (∀ (i : Interpreter) (limit : Nat) (source : String),
      i.limit ≤ limit → Settled (i.evalSource source).1 →
        (i.withLimit limit).evalSource source =
          ((i.evalSource source).1, (i.evalSource source).2.withLimit limit)) := by
  refine ⟨?_, ?_, ?_⟩
  · intro ctx limit scope term s more settled
    have room : ctx.limit - ctx.depth ≤ limit - ctx.depth := Nat.sub_le_sub_right more ctx.depth
    exact Context.eval_eq_of_settled ctx { ctx with limit } rfl room settled
  · intro ctx ctx' scope term s grants room settled
    exact Context.eval_eq_of_settled ctx ctx' grants (Nat.le_of_eq room) settled
  · intro i limit source more settled
    exact Interpreter.evalSource_withLimit more source settled

/-- The term `(+ 1 2)`. -/
def sumTerm : Value :=
  .applied (.builtin (.primitive (.arithmetic .add))) [.integer 1, .integer 2]

/-- An interpreter with two levels, which is all that `(+ 1 2)` takes. -/
def shallow : Interpreter := .fresh 2

theorem sum_independent_of_limit :
    (Context.eval { limit := 5 } globalScope sumTerm : EvalM Value) .initial =
      (Context.eval { limit := 2 } globalScope sumTerm : EvalM Value) .initial ∧
    (Context.eval { limit := 4, depth := 2 } globalScope sumTerm : EvalM Value) .initial =
      (Context.eval { limit := 2 } globalScope sumTerm : EvalM Value) .initial ∧
    (shallow.withLimit 5).evalSource "(+ 1 2)" =
      ((shallow.evalSource "(+ 1 2)").1, (shallow.evalSource "(+ 1 2)").2.withLimit 5) := by
  have value : EvalM.outcome (Context.eval { limit := 2 } globalScope sumTerm) .initial =
      .ok (.integer 3) := by rfl
  have settled :
      Settled (EvalM.outcome (Context.eval { limit := 2 } globalScope sumTerm) .initial) :=
    value ▸ settled_ok _
  have answer : (shallow.evalSource "(+ 1 2)").1.toOption = some (.integer 3) := by
    decide +kernel
  obtain ⟨raise, shift, raiseSource⟩ := settled_independent_of_limit
  refine ⟨?_, ?_, ?_⟩
  · exact raise { limit := 2 } 5 globalScope sumTerm .initial (by decide) settled
  · exact shift { limit := 2 } { limit := 4, depth := 2 } globalScope sumTerm .initial rfl rfl
      settled
  · exact raiseSource shallow 5 "(+ 1 2)" (by decide) (settled_of_toOption answer)

end GuardedLisp
