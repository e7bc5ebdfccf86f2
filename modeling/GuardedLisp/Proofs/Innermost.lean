import GuardedLisp.Proofs.Run

/-!
# The application that an error names

A type error or an overflow names the innermost application that it came out of.  Evaluation adds
the name where an application ends, so an error that comes out of the evaluation of a term has it,
if it is an error that needs one.  Applications further out add nothing.

## Main definitions

* `Error.Placed`: an error to which no application is added any more
* `EvalM.Placed`: a computation that fails with such errors only

## Main results

* `EvalM.placed_evalAt`: the errors of evaluation are placed
* `EvalM.Placed.during_eq`: nothing is added to the errors of such a computation
-/

namespace GuardedLisp

/-! ## Errors -/

namespace Error

/-- An error to which no application is added any more. -/
def Placed (e : Error) : Prop := ∀ application, e.during application = e

/-- The innermost application is named, and none further out. -/
theorem placed_during (application : Thunk String) (e : Error) : (e.during application).Placed := by
  intro outer
  cases e with
  | type fault named =>
    cases named with
    | none =>
      by_cases marked : isMarked fault.message = true <;> simp [during, marked]
    | some shown => rfl
  | overflow operation named => cases named <;> rfl
  | _ => rfl

end Error

/-! ## Computations -/

namespace EvalM

/-- A computation whose errors are placed. -/
def Placed (x : EvalM α) : Prop := ∀ s e s', x s = .error e s' → e.Placed

theorem Placed.bind {x : EvalM α} {f : α → EvalM β} (first : x.Placed)
    (rest : ∀ a, (f a).Placed) : Placed (x >>= f) := by
  intro s e s' failed
  cases ran : x s with
  | ok a between => exact rest a between e s' (bind_of_ok ran f ▸ failed)
  | error e' between =>
    rw [bind_of_error ran] at failed
    cases failed
    exact first s e s' ran

theorem placed_pure (a : α) : Placed (pure a : EvalM α) := by
  intro s e s' failed
  cases failed

theorem placed_during (application : Value) (x : EvalM α) : (x.during application).Placed := by
  intro s e s' failed
  simp only [during] at failed
  split at failed
  · cases failed
  · next e' _ _ =>
    cases failed
    exact e'.placed_during _

/-- Nothing is left to be named in the errors of a computation. -/
theorem Placed.during_eq {x : EvalM α} (placed : x.Placed) (application : Value) :
    x.during application = x := by
  funext s
  simp only [during]
  cases ran : x s with
  | ok a s' => rfl
  | error e s' => simp only [placed s e s' ran _]

theorem placed_lookup (scope : Scope) (name : Symbol) : (lookup scope name).Placed := by
  intro s e s' failed
  simp only [lookup, ask] at failed
  split at failed
  · cases failed
  · next refused =>
    cases failed
    unfold Store.lookup SlotTable.get at refused
    -- A name is missing, denied or unset, and none of these names an application.
    repeat' split at refused
    all_goals cases refused
    all_goals exact fun _ => rfl

theorem placed_elements (v : Value) :
    Placed (Machine.ofExcept v.elements : EvalM (List Value)) := by
  unfold Value.elements
  cases v.elements? with
  | some items => exact placed_pure items
  | none =>
    intro s e s' failed
    cases failed
    exact fun _ => rfl

/-- **The errors of evaluation are placed.**  They come from looking up a name, from terms that are
not a list, or out of an application, which has been named if it has to be. -/
theorem placed_evalAt (limit left : Nat) (grants : Grants) (scope : Scope) (term : Value) :
    Placed (evalAt limit left grants scope term) := by
  induction left generalizing term with
  | zero =>
    intro s e s' failed
    cases failed
    exact fun _ => rfl
  | succ left ih =>
    cases term with
    | symbol name => exact placed_lookup scope name
    | pair address first rest =>
      refine (ih first).bind fun callable => ?_
      refine (placed_elements rest).bind fun args => ?_
      exact placed_during _ _
    | _ => exact placed_pure _

end EvalM

namespace Context

theorem placed_eval (ctx : Context) (scope : Scope) (term : Value) :
    EvalM.Placed (ctx.eval scope term) :=
  EvalM.placed_evalAt _ _ _ scope term

theorem placed_evalLast (ctx : Context) (scope : Scope) (term : Value) (terms : List Value) :
    EvalM.Placed (ctx.level.evalLast ctx.grants scope term terms) := by
  induction terms generalizing term with
  | nil => exact ctx.placed_eval scope term
  | cons next terms ih => exact (ctx.placed_eval scope term).bind fun _ => ih next

end Context

end GuardedLisp
