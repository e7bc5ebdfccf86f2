import GuardedLisp.Proofs.Chain
import GuardedLisp.Proofs.Termination

/-!
# How deep calls nest

Activations are open at once if each has been started by the one before it, which waits for its
end.  The limit bounds how many calls are open, except for calls of methods: a method has the levels
of the call that it was found by, and is told apart from it only by one more grant.  So the calls
that are open are at most as many as there are levels and grants in force, and a chain of selectors
goes on for as long as there are selectors, whatever the limit.

## Main definitions

* `Activation.Nests`: activations that are open at once
* `Activation.applications`: how many of them are calls

## Main results

* `Activation.applications_add_grants_le`: calls that are open, bounded by levels and grants
* `exists_nests_aroundLoop`: a chain of selectors has as many calls open as it has selectors
-/

namespace GuardedLisp

namespace Activation

/-- Activations that are open at once, the outermost first. -/
inductive Nests : Activation → Store → List Activation → Prop where
  | alone (a : Activation) (s : Store) : Nests a s [a]
  | within {a b : Activation} {s s' : Store} {inner : List Activation} :
    a.Asks s b s' → Nests b s' inner → Nests a s (a :: inner)

/-- Whether an activation is the call of a value. -/
def isApplication : Activation → Bool
  | apply _ _ _ _ => true
  | _ => false

/-- How many of some activations are calls of values. -/
def applications (stack : List Activation) : Nat := stack.countP isApplication

/-- How many calls an activation leaves room for, itself included, unless there are more grants. -/
def room : Activation → Nat
  | eval ctx _ _ => ctx.left
  | apply ctx _ _ _ => ctx.left + 1
  | call ctx _ _ _ _ => ctx.left
  | expand ctx _ _ => ctx.left

/-- What an activation starts has less room by the call that the activation is, unless it has more
grants. -/
theorem room_of_leads {a b : Activation} (leads : a.Leads b) :
    applications [a] + b.room + a.ctx.grants.length ≤ a.room + b.ctx.grants.length := by
  cases leads with
  | head entered | application entered =>
    have levels := Context.left_of_enter entered
    obtain ⟨-, rfl⟩ := Context.enter_eq_ok entered
    simp only [applications, isApplication, room, ctx, Context.left, List.countP_cons,
      List.countP_nil, Bool.false_eq_true, if_false] at levels ⊢
    omega
  | unquoted entered more | part entered more =>
    have levels := Context.left_of_enter entered
    obtain ⟨-, rfl⟩ := Context.enter_eq_ok entered
    have grants := more.length_le
    simp only [applications, isApplication, room, ctx, Context.left, List.countP_cons,
      List.countP_nil, Bool.false_eq_true, if_false] at levels grants ⊢
    omega
  | term more | template more =>
    have grants := more.length_le
    simp only [applications, isApplication, room, ctx, Context.left, List.countP_cons,
      List.countP_nil, if_true]
    omega
  | method =>
    simp only [applications, isApplication, room, ctx, List.countP_cons, List.countP_nil, if_true]
    omega
  | granted =>
    -- The one more call of which there may be one is paid for by the grant.
    simp only [applications, isApplication, room, ctx, Context.grant, Context.left,
      List.countP_cons, List.countP_nil, List.length_cons, Bool.false_eq_true, if_false]
    omega

theorem applications_le_room {a : Activation} {s : Store} {stack : List Activation}
    (nests : a.Nests s stack) :
    ∃ inner, stack.getLast? = some inner ∧
      applications stack + a.ctx.grants.length ≤ a.room + inner.ctx.grants.length := by
  induction nests with
  | alone a s =>
    refine ⟨a, rfl, ?_⟩
    cases a <;> simp [applications, isApplication, room]
  | @within a b s s' stack asks nests ih =>
    obtain ⟨inner, last, bound⟩ := ih
    have step := room_of_leads (leads_of_asks asks)
    refine ⟨inner, ?_, ?_⟩
    · cases stack with
      | nil => cases last
      | cons next stack => rw [List.getLast?_cons_cons, last]
    · have count : applications ([a] ++ stack) = applications [a] + applications stack :=
        List.countP_append
      rw [List.singleton_append] at count
      omega

end Activation

/-- **The limit bounds the calls that are open, but for methods.**  Of the calls that are open at
once while a term is evaluated, there are at most as many as levels are left at the start and grants
have been added since. -/
theorem Context.applications_add_grants_le (ctx : Context) (scope : Scope) (term : Value)
    (s : Store) {stack : List Activation} (nests : (Activation.eval ctx scope term).Nests s stack) :
    ∃ inner, stack.getLast? = some inner ∧
      Activation.applications stack + ctx.grants.length ≤
        ctx.left + inner.ctx.grants.length :=
  Activation.applications_le_room nests

/-! ## Chains of selectors -/

/-- The term that leads from the class to itself so many times. -/
def askAround (count : Nat) : Value := .applied (.classObject 1) (aroundLoop count)

theorem elements_aroundLoop (count : Nat) :
    ((aroundLoop count).foldr (Value.pair 0) .nil).elements = .ok (aroundLoop count) := by
  refine Value.elements_eq_ok_iff.mpr ?_
  induction count with
  | zero => exact .last .nil
  | succ count ih => exact .pair 0 ih

/-- What the slot of the class holds in every store that has the classes of `loopStore`. -/
theorem get_of_classes_eq {s : Store} (classes : s.classes = loopStore.classes) (access : Access) :
    (s.slots 1).get ⟨35, "next"⟩ access = .ok (.classObject 1) := by
  rw [Store.slots_eq_of_classes_eq classes, get_loopStore]

/-- Every selector but the last has one more call open. -/
theorem nests_aroundLoop (count : Nat) (ctx : Context) (scope : Scope) {s : Store}
    (classes : s.classes = loopStore.classes) :
    ∃ stack, (Activation.apply ctx scope (.classObject 1) (aroundLoop (count + 1))).Nests s stack ∧
      Activation.applications stack = count + 1 := by
  -- Induction on the selectors: after each of them the class is called in a new frame.
  induction count generalizing ctx scope s with
  | zero => exact ⟨_, .alone _ s, rfl⟩
  | succ count ih =>
    have method : (Activation.apply ctx scope (.classObject 1) (aroundLoop (count + 2))).Asks s
        (.call ctx scope 1 (.classObject 1) (aroundLoop (count + 1))) s :=
      Activation.asks_method (get_of_classes_eq classes _) rfl
    obtain ⟨scope', s', same, granted, -⟩ :=
      Activation.asks_granted ctx scope 1 (.classObject 1) (aroundLoop (count + 1)) s
    obtain ⟨stack, nests, open'⟩ := ih (ctx.grant 1) scope' (same.trans classes)
    refine ⟨_ :: _ :: stack, .within method (.within granted nests), ?_⟩
    simp only [Activation.applications, List.countP_cons, Activation.isApplication] at open' ⊢
    rw [open']
    rfl

/-- The chain of selectors ends with the class. -/
theorem run_aroundLoop (count : Nat) (ctx : Context) (scope : Scope) {s : Store}
    (classes : s.classes = loopStore.classes) :
    ∃ s', (ctx.apply scope (.classObject 1) (aroundLoop (count + 1)) : EvalM Value) s =
      .ok (.classObject 1) s' := by
  induction count generalizing ctx scope s with
  | zero =>
    refine ⟨s, ?_⟩
    rw [ctx.apply_eq_body]
    show EStateM.bind (EvalM.getSlot 1 ⟨35, "next"⟩ (ctx.access 1)) _ s = _
    simp only [EStateM.bind, EvalM.getSlot, EvalM.ask, get_of_classes_eq classes]
    rfl
  | succ count ih =>
    obtain ⟨scope', s', same, -, goesOn⟩ :=
      Activation.asks_granted ctx scope 1 (.classObject 1) (aroundLoop (count + 1)) s
    obtain ⟨final, ended⟩ := ih (ctx.grant 1) scope' (same.trans classes)
    refine ⟨final, ?_⟩
    rw [ctx.apply_eq_body]
    show EStateM.bind (EvalM.getSlot 1 ⟨35, "next"⟩ (ctx.access 1)) _ s = _
    simp only [EStateM.bind, EvalM.getSlot, EvalM.ask, get_of_classes_eq classes]
    exact goesOn.trans ended

/-- With two levels, a term can have as many calls open at once as it has selectors, and still end
with a value.  So no limit bounds the calls that are open. -/
theorem exists_nests_aroundLoop (ctx : Context) (room : 2 ≤ ctx.left) (scope : Scope)
    (count : Nat) :
    (∃ s', (ctx.eval scope (askAround (count + 1)) : EvalM Value) loopStore =
      .ok (.classObject 1) s') ∧
    ∃ stack, (Activation.eval ctx scope (askAround (count + 1))).Nests loopStore stack ∧
      Activation.applications stack = count + 1 := by
  obtain ⟨limit, depth, grants⟩ := ctx
  simp only [Context.left] at room
  have entered : Context.enter ⟨limit, depth, grants⟩ = .ok ⟨limit, depth + 1, grants⟩ :=
    if_neg (by simp only; omega)
  have head : (Context.eval ⟨limit, depth + 1, grants⟩ scope (.classObject 1) : EvalM Value)
      loopStore = .ok (.classObject 1) loopStore := by
    have further : Context.enter ⟨limit, depth + 1, grants⟩ = .ok ⟨limit, depth + 2, grants⟩ :=
      if_neg (by simp only; omega)
    rw [Context.eval_eq_body]
    simp only [Activation.body, further]
    rfl
  constructor
  · obtain ⟨s', ended⟩ := run_aroundLoop count ⟨limit, depth + 1, grants⟩ scope
      (s := loopStore) rfl
    refine ⟨s', ?_⟩
    rw [Context.eval_eq_body]
    simp only [Activation.body, entered, askAround, Value.applied, Activation.evalBody,
      elements_aroundLoop, Activation.run, Machine.ofExcept, Machine.during, bind, EStateM.bind,
      pure, EStateM.pure, EvalM.during, head, ended]
  · obtain ⟨stack, nests, open'⟩ := nests_aroundLoop count ⟨limit, depth + 1, grants⟩ scope
      (s := loopStore) rfl
    refine ⟨_ :: stack, .within ?_ nests, ?_⟩
    · exact Activation.asks_application entered head (elements_aroundLoop (count + 1))
    · simpa [Activation.applications, Activation.isApplication] using open'

/-- With a limit of 3, an evaluation that has more than 4 * 3 calls open at once ends with a
value. -/
theorem thirteen_calls_open :
    (∃ s', (Context.eval { limit := 3 } globalScope (askAround 13) : EvalM Value) loopStore =
      .ok (.classObject 1) s') ∧
    ∃ stack, (Activation.eval { limit := 3 } globalScope (askAround 13)).Nests loopStore stack ∧
      4 * 3 < Activation.applications stack := by
  obtain ⟨ended, stack, nests, count⟩ :=
    exists_nests_aroundLoop { limit := 3 } (by decide) globalScope 12
  refine ⟨ended, stack, nests, ?_⟩
  rw [count]
  decide

theorem grants_of_thirteen_calls :
    ∃ stack inner,
      (Activation.eval { limit := 3 } globalScope (askAround 13)).Nests loopStore stack ∧
      Activation.applications stack = 13 ∧ stack.getLast? = some inner ∧
      10 ≤ inner.ctx.grants.length := by
  obtain ⟨-, stack, nests, count⟩ :=
    exists_nests_aroundLoop { limit := 3 } (by decide) globalScope 12
  obtain ⟨inner, last, bound⟩ :=
    Context.applications_add_grants_le { limit := 3 } globalScope (askAround 13) loopStore nests
  refine ⟨stack, inner, nests, count, last, ?_⟩
  simp only [count, Context.left, List.length_nil] at bound
  omega

end GuardedLisp
