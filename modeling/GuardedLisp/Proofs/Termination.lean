import GuardedLisp.Interpreter
import GuardedLisp.Proofs.Activation
import Mathlib.Data.Prod.Lex
import Mathlib.Order.WellFounded

/-!
# Every evaluation ends

An activation ends if its body comes to something with answers for activations that end.  This is
an inductive definition: an activation that waits for itself, directly or through others, does not
end by it.

Every activation ends, since those that it starts are of a smaller rank.  A term and a template
take a level.  A call takes none, and may lead from class to class for as long as there are
selectors, even if a class holds itself; but each selector is used up.  An expansion may be larger
than the call that it comes from, but its size has no part in the rank.

## Main definitions

* `Activation.Ends`: how an activation ends, by way of activations that end
* `Activation.rank`: the levels that are left, and then the arguments

## Main results

* `Activation.rank_lt_of_leads`: an activation only starts others of a smaller rank
* `Activation.ends`: every activation ends, as evaluation says
-/

namespace GuardedLisp

namespace Activation

/-- How an activation ends in a store: its body comes to that with answers for activations all of
which end. -/
inductive Ends : Activation → Store → EStateM.Result Error Store Value → Prop where
  | intro {a : Activation} {s : Store} {r : EStateM.Result Error Store Value}
    (answers : Activation → Partial Value)
    (known : ∀ b s r, answers b s = some r → Ends b s r)
    (found : a.body answers s = some r) : Ends a s r

/-- The levels that are left, and what is left of a call.  A method is called with fewer arguments
than the class, and is itself less than the call that it leads to. -/
def rank : Activation → Nat ×ₗ Nat
  | eval ctx _ _ => toLex (ctx.left, 0)
  | apply ctx _ _ args => toLex (ctx.left, 2 * args.length + 1)
  | call ctx _ _ _ args => toLex (ctx.left, 2 * args.length + 2)
  | expand ctx _ _ => toLex (ctx.left, 0)

/-- An activation only starts others of a smaller rank. -/
theorem rank_lt_of_leads {a b : Activation} (leads : a.Leads b) : b.rank < a.rank := by
  cases leads with
  -- A term or a template takes a level, whatever it starts.
  | head entered | application entered | unquoted entered _ | part entered _ =>
    have room := Context.left_of_enter entered
    refine Prod.Lex.toLex_lt_toLex.mpr (.inl ?_)
    simp only [Context.left] at room ⊢
    omega
  -- A call has the levels of what it starts, and comes after it.
  | term | template | method | granted =>
    refine Prod.Lex.toLex_lt_toLex.mpr (.inr ⟨rfl, ?_⟩)
    simp only [List.length_cons]
    omega

/-- An activation ends as evaluation says. -/
theorem ends_run (a : Activation) (s : Store) : a.Ends s (a.run s) := by
  induction a using WellFounded.induction (InvImage.wf rank wellFounded_lt) generalizing s with
  | _ a ih =>
    -- Evaluation answers for what is of a smaller rank, and nothing answers for the rest.
    let answers : Activation → Partial Value := fun b s =>
      if b.rank < a.rank then some (b.run s) else none
    refine .intro answers (fun b s r known => ?_) ?_
    · simp only [answers] at known
      split at known
      · next smaller =>
        obtain rfl := Option.some.inj known
        exact ih b smaller s
      · cases known
    · exact body_eq_run (fun b leads s => if_pos (rank_lt_of_leads leads)) s

/-- An activation does not end in two ways. -/
theorem run_eq_of_ends {a : Activation} {s : Store} {r : EStateM.Result Error Store Value}
    (ends : a.Ends s r) : a.run s = r := by
  induction ends with
  | intro answers _ found ih => exact run_eq_of_body ih found

/-- **Every evaluation ends.**  Every activation, in every store and with every limit, ends with a
value or an error, and with nothing else than what evaluation gives.  What it starts on the way is
of a smaller rank: it has fewer levels left, or as many and fewer arguments.  This covers calls that
lead from class to class without taking a level, and expansions of any size. -/
theorem ends :
    (∀ (a : Activation) (s : Store), ∃ r, a.Ends s r ∧ ∀ r', a.Ends s r' → r' = r) ∧
    (∀ (ctx : Context) (scope : Scope) (term : Value) (s : Store),
      (eval ctx scope term).Ends s ((ctx.eval scope term : EvalM Value) s)) ∧
    (∀ (a b : Activation) (s s' : Store), a.Asks s b s' → b.rank < a.rank) := by
  refine ⟨?_, ?_, ?_⟩
  · intro a s
    refine ⟨a.run s, a.ends_run s, fun r' ends => ?_⟩
    exact (run_eq_of_ends ends).symm
  · intro ctx scope term s
    exact (eval ctx scope term).ends_run s
  · intro a b s s' asks
    exact rank_lt_of_leads (leads_of_asks asks)

end Activation

/-- A class that holds itself in a slot. -/
def loopStore : Store :=
  let slots : SlotTable := { entries := [(⟨35, "next"⟩, { value := some (.classObject 1) })] }
  { Store.initial with classes := #[{}, ⟨[baseClass], [baseClass], slots⟩] }

theorem get_loopStore (access : Access) :
    (loopStore.slots 1).get ⟨35, "next"⟩ access = .ok (.classObject 1) := by
  cases access <;> rfl

/-- The names that lead from the class to itself so many times. -/
def aroundLoop (count : Nat) : List Value := List.replicate count (.symbol ⟨35, "next"⟩)

theorem ends_aroundLoop :
    (∃ r, (Activation.apply {} globalScope (.classObject 1) (aroundLoop 2)).Ends loopStore r) ∧
    (Activation.call {} globalScope 1 (.classObject 1) (aroundLoop 1)).rank <
      (Activation.apply {} globalScope (.classObject 1) (aroundLoop 2)).rank := by
  obtain ⟨total, -, smaller⟩ := Activation.ends
  constructor
  · obtain ⟨r, ends, -⟩ := total (.apply {} globalScope (.classObject 1) (aroundLoop 2)) loopStore
    exact ⟨r, ends⟩
  · exact smaller _ _ loopStore loopStore (Activation.asks_method (get_loopStore _) rfl)

end GuardedLisp
