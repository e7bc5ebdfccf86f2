import GuardedLisp.Proofs.Closures
import GuardedLisp.Proofs.Renaming.Eval

/-!
# Definitions of functions

A definition with a signature, `(define (name . params) first forms...)`, stands for the definition
of a name, `(define name (lambda params first forms...))`.  The term headed by `lambda` is made when
the definition is evaluated, out of new pairs.  It is then evaluated like any other term, so what
`lambda` means where the definition stands matters in both, and so do the parameters, even if they
are none.  What the two leave behind differs in the addresses of what has been made since.

## Main definitions

* `Context.bindTo`: evaluates a term and binds a name to its value
* `leaving`: the renaming that leaves some addresses unused

## Main results

* `Context.eval_of_elements`: a term is evaluated by its elements, not by what its pairs are
* `Context.eval_define_name`, `Context.eval_define_signature`: what the two definitions come to
* `Context.eval_signature`: a definition with a signature does what its expansion does
-/

namespace GuardedLisp

open Machine (act fail)

/-! ## Terms with the same elements -/

namespace Value

theorem eq_nil_of_elements? {v : Value} (proper : v.elements? = some []) : v = .nil := by
  cases elements?_eq_some_iff.mp proper
  rfl

theorem exists_pair_of_elements? {v head : Value} {items : List Value}
    (proper : v.elements? = some (head :: items)) :
    ∃ address rest, v = .pair address head rest ∧ rest.elements? = some items := by
  cases elements?_eq_some_iff.mp proper with
  | pair address chain => exact ⟨address, _, rfl, elements?_eq_some_iff.mpr chain⟩

/-- The text of a list shows its elements and nothing else. -/
theorem writeAfter_of_elements? {v w : Value} {items : List Value}
    (proper : v.elements? = some items) (alike : w.elements? = some items) (written : String)
    (asTail : Bool) : v.writeAfter written asTail = w.writeAfter written asTail := by
  induction items generalizing v w written asTail with
  | nil => rw [eq_nil_of_elements? proper, eq_nil_of_elements? alike]
  | cons head items ih =>
    obtain ⟨address, rest, rfl, listed⟩ := exists_pair_of_elements? proper
    obtain ⟨other, rest', rfl, listed'⟩ := exists_pair_of_elements? alike
    exact ih listed listed' _ true

theorem text_of_elements? {v w : Value} {items : List Value} (proper : v.elements? = some items)
    (alike : w.elements? = some items) : v.text = w.text :=
  writeAfter_of_elements? proper alike "" false

end Value

/-- Terms with the same elements are evaluated alike. -/
theorem Context.eval_of_elements (ctx : Context) (scope : Scope) {v w : Value}
    {items : List Value} (proper : v.elements? = some items) (alike : w.elements? = some items) :
    (ctx.eval scope v : EvalM Value) = ctx.eval scope w := by
  cases items with
  | nil => rw [Value.eq_nil_of_elements? proper, Value.eq_nil_of_elements? alike]
  | cons head items =>
    have text := Value.text_of_elements? proper alike
    obtain ⟨address, rest, rfl, listed⟩ := Value.exists_pair_of_elements? proper
    obtain ⟨other, rest', rfl, listed'⟩ := Value.exists_pair_of_elements? alike
    rw [eval_eq_body, eval_eq_body]
    simp only [Activation.body, Activation.evalBody, Value.elements, listed, listed']
    cases ctx.enter with
    | error e => rfl
    | ok inner =>
      refine congrArg (bind _) (funext fun callable => ?_)
      show EvalM.during (.pair address head rest) _ = EvalM.during (.pair other head rest') _
      unfold EvalM.during
      simp only [text]
      rfl

namespace Context

variable {ctx : Context} {scope : Scope} {head callable term : Value} {args : List Value}
  {s s₁ : Store}

/-- Once its head has been evaluated, a term calls what the head stands for. -/
theorem eval_of_head (listed : term.elements? = some (head :: args))
    (evaluated : (Context.eval { ctx with depth := ctx.depth + 1 } scope head : EvalM Value) s =
      .ok callable s₁) :
    (ctx.eval scope term : EvalM Value) s = EvalM.during term
      (Context.apply { ctx with depth := ctx.depth + 1 } scope callable args) s₁ := by
  obtain ⟨address, rest, rfl, proper⟩ := Value.exists_pair_of_elements? listed
  rw [eval_pair evaluated]
  simp only [Value.elements, proper]
  rfl

/-- A term whose head fails does the same. -/
theorem eval_of_head_error (listed : term.elements? = some (head :: args)) {e : Error}
    (failed : (Context.eval { ctx with depth := ctx.depth + 1 } scope head : EvalM Value) s =
      .error e s₁) :
    (ctx.eval scope term : EvalM Value) s = .error e s₁ := by
  obtain ⟨address, rest, rfl, -⟩ := Value.exists_pair_of_elements? listed
  rw [eval_eq_body]
  cases entered : ctx.enter with
  | ok inner =>
    obtain ⟨-, rfl⟩ := enter_eq_ok entered
    simp only [Activation.body, entered, Activation.evalBody]
    exact EvalM.bind_of_error failed _
  | error e' =>
    obtain ⟨rfl, none⟩ := enter_eq_error entered
    have none' : ctx.limit - (ctx.depth + 1) = 0 := by omega
    simp only [Context.eval, level, none'] at failed
    cases failed
    simp only [Activation.body, entered]
    rfl

theorem of_eval_symbol_eq_ok {name : Symbol} {v : Value}
    (evaluated : (ctx.eval scope (.symbol name) : EvalM Value) s = .ok v s₁) :
    s.lookup scope name = .ok v ∧ s₁ = s := by
  rcases Nat.lt_or_ge ctx.depth ctx.limit with room | full
  · simp only [eval_symbol room, EvalM.lookup, EvalM.ask] at evaluated
    split at evaluated
    · next found =>
      cases evaluated
      exact ⟨found, rfl⟩
    · cases evaluated
  · rw [eval_symbol_of_full full] at evaluated
    cases evaluated

end Context

/-- Whether a value can be called at all. -/
def Value.isCallable : Value → Bool
  | closure .. | builtin _ | classObject _ => true
  | _ => false

theorem Context.apply_of_not_callable {ctx : Context} {scope : Scope} {v : Value}
    {args : List Value} (no : v.isCallable = false) :
    (ctx.apply scope v args : EvalM Value) = fail (.notCallable (.value v.text v.kind)) := by
  rw [apply_eq_body]
  cases v <;> first | rfl | cases no

/-! ## What definitions come to -/

/-- Evaluates a term and binds a name to its value. -/
def Context.bindTo (ctx : Context) (scope : Scope) (name : Symbol) (term : Value) :
    EvalM Value := do
  let value ← ctx.eval scope term
  act (.define scope name value)
  return .nil

theorem EvalM.placed_define (scope : Scope) (name : Symbol) (value : Value) :
    (define scope name value).Placed := by
  intro s e s' failed
  simp only [define, edit] at failed
  split at failed
  · cases failed
  · next refused =>
    cases failed
    unfold Store.define at refused
    rw [SlotTable.defineValue_eq] at refused
    -- A binding is refused because of its name, and the error names no application.
    repeat' split at refused
    all_goals grind [Error.Placed, Error.during]

namespace Context

variable {ctx : Context} {scope : Scope} {name : Symbol} {head params first term : Value}
  {address : Address} {forms : List Value} {s s₁ : Store}

theorem placed_bindTo (ctx : Context) (scope : Scope) (name : Symbol) (term : Value) :
    (ctx.bindTo scope name term).Placed :=
  (ctx.placed_eval scope term).bind fun value =>
    (EvalM.placed_define scope name value).bind fun _ => EvalM.placed_pure _

theorem bindTo_of_elements (ctx : Context) (scope : Scope) (name : Symbol) {v w : Value}
    {items : List Value} (proper : v.elements? = some items) (alike : w.elements? = some items) :
    ctx.bindTo scope name v = ctx.bindTo scope name w := by
  unfold bindTo
  rw [ctx.eval_of_elements scope proper alike]

/-- What comes of a definition has no address and no symbol. -/
theorem mirrors_bindTo {f : Renaming} (injective : Function.Injective f.address) (ctx : Context)
    (scope : Scope) (name : Symbol) (term : Value) :
    EvalM.Mirrors f id (ctx.bindTo scope name term)
      (ctx.bindTo scope (name.rename f) (term.rename f)) := by
  refine EvalM.mirrors_bind (ctx.mirrors_eval injective scope term) fun value => ?_
  refine EvalM.mirrors_bind (mirrors_act f (.define scope name value)) fun _ => ?_
  exact EvalM.mirrors_pure id Value.nil

section Forms

variable (evaluated :
  (Context.eval { ctx with depth := ctx.depth + 1 } scope head : EvalM Value) s =
    .ok (.builtin (.form .define)) s₁)

include evaluated

/-- The definition of a name binds it to what a term stands for. -/
theorem eval_define_name {definition : Value}
    (listed : definition.elements? = some [head, .symbol name, term]) :
    (ctx.eval scope definition : EvalM Value) s =
      Context.bindTo { ctx with depth := ctx.depth + 1 } scope name term s₁ := by
  rw [eval_of_head listed evaluated, apply_eq_body]
  exact congrFun ((placed_bindTo _ scope name term).during_eq _) s₁

/-- A definition with a signature makes a term headed by `lambda`, and binds the name to what this
term stands for. -/
theorem eval_define_signature {definition : Value}
    (listed : definition.elements? = some
      (head :: .pair address (.symbol name) params :: first :: forms)) :
    (ctx.eval scope definition : EvalM Value) s =
      (EvalM.alloc (Alloc.list (.symbol .lambda :: params :: first :: forms)) >>=
        Context.bindTo { ctx with depth := ctx.depth + 1 } scope name) s₁ := by
  rw [eval_of_head listed evaluated, apply_eq_body]
  have placed : EvalM.Placed
      (EvalM.alloc (Alloc.list (.symbol .lambda :: params :: first :: forms)) >>=
        Context.bindTo { ctx with depth := ctx.depth + 1 } scope name) := by
    refine EvalM.Placed.bind (fun s e s' failed => ?_) (placed_bindTo _ scope name)
    cases failed
  exact congrFun (placed.during_eq _) s₁

end Forms

end Context

/-! ## The addresses that differ -/

/-- Leaves `count` addresses from `bound` on unused: those from there on move up. -/
def leaving (bound count a : Nat) : Nat := if a < bound then a else a + count

theorem leaving_of_lt {bound count a : Nat} (h : a < bound) : leaving bound count a = a := if_pos h

theorem leaving_add (bound count i : Nat) :
    leaving bound count (bound + i) = bound + count + i := by
  unfold leaving
  rw [if_neg (Nat.not_lt.mpr (Nat.le_add_right bound i))]
  omega

theorem injective_leaving (bound count : Nat) : Function.Injective (leaving bound count) := by
  intro a b h
  unfold leaving at h
  split at h <;> split at h <;> omega

/-- The elements of a list are left as they are if the list is. -/
theorem Value.rename_of_mem_elements? {f : Renaming} {v item : Value}
    {items : List Value} (same : v.rename f = v) (listed : v.elements? = some items)
    (mem : item ∈ items) : item.rename f = item := by
  have renamed := v.elements?_rename f
  rw [same, listed, Option.map_some, Option.some.injEq] at renamed
  exact List.map_inj_left.mp ((List.map_id _).trans renamed).symm item mem

/-- A result that differs from another one in addresses only, and in those only that have been
taken since a bound. -/
def AlikeFrom (bound : Address) (result other : EStateM.Result Error Store α) : Prop :=
  ∃ (f : Address → Address) (next : Address), Function.Injective f ∧ (∀ a < bound, f a = a) ∧
    result = renameResult f next id other

theorem AlikeFrom.refl (bound : Address) (result : EStateM.Result Error Store α) :
    AlikeFrom bound result result := by
  cases result with
  | ok a s =>
    refine ⟨id, s.nextAddress, Function.injective_id, fun _ _ => rfl, ?_⟩
    exact congrArg (EStateM.Result.ok a) (Store.rename_nothing s).symm
  | error e s =>
    refine ⟨id, s.nextAddress, Function.injective_id, fun _ _ => rfl, ?_⟩
    exact congrArg (EStateM.Result.error e) (Store.rename_nothing s).symm

namespace Context

variable {ctx : Context} {scope : Scope} {name : Symbol} {params first function : Value}
  {address : Address} {forms : List Value} {s : Store} {sugar expansion : Value}

/-- If some addresses are left unused before a definition, other addresses are taken in it. -/
theorem alikeFrom_bindTo (ctx : Context) (scope : Scope) (name : Symbol) {term : Value}
    (storeBelow : s.Below s.nextAddress)
    (fixed : ∀ f : Address → Address, (∀ a < s.nextAddress, f a = a) → term.rename f = term)
    (count : Nat) :
    AlikeFrom s.nextAddress
      (ctx.bindTo scope name term { s with nextAddress := s.nextAddress + count })
      (ctx.bindTo scope name term s) := by
  have keeps (a : Nat) (small : a < s.nextAddress) : leaving s.nextAddress count a = a :=
    leaving_of_lt small
  have injective := injective_leaving s.nextAddress count
  refine ⟨leaving s.nextAddress count,
    s.nextAddress + count + (ctx.bindTo scope name term).taken s, injective, keeps, ?_⟩
  have same : s.rename (leaving s.nextAddress count) (s.nextAddress + count) =
      { s with nextAddress := s.nextAddress + count } :=
    Store.moving_eq_self keeps storeBelow
  have mirrors := mirrors_bindTo (f := leaving s.nextAddress count) injective ctx scope name term
  rw [fixed _ keeps] at mirrors
  rw [← same]
  exact mirrors.follows s _ fun i _ => leaving_add s.nextAddress count i

/-- The two definitions come to the same, wherever the name `define` leads to. -/
theorem alikeFrom_eval_signature
    (sugared : sugar.elements? = some
      (.symbol (.global "define") :: .pair address (.symbol name) params :: first :: forms))
    (expanded : expansion.elements? = some [.symbol (.global "define"), .symbol name, function])
    (headed : function.elements? = some (.symbol .lambda :: params :: first :: forms))
    (kept : ∀ v, s.lookup scope (.global "define") = .ok v → v.isCallable = true →
      v = .builtin (.form .define))
    (storeBelow : s.Below s.nextAddress) (termBelow : expansion.Below s.nextAddress) :
    AlikeFrom s.nextAddress ((ctx.eval scope sugar : EvalM Value) s)
      ((ctx.eval scope expansion : EvalM Value) s) := by
  cases evaluated : (Context.eval { ctx with depth := ctx.depth + 1 } scope
      (.symbol (.global "define")) : EvalM Value) s with
  | error e s₁ =>
    rw [eval_of_head_error sugared evaluated, eval_of_head_error expanded evaluated]
    exact .refl _ _
  | ok callable s₁ =>
    obtain ⟨found, rfl⟩ := of_eval_symbol_eq_ok evaluated
    cases callable? : callable.isCallable with
    | false =>
      rw [eval_of_head sugared evaluated, eval_of_head expanded evaluated,
        apply_of_not_callable callable?, apply_of_not_callable callable?]
      exact .refl _ _
    | true =>
      obtain rfl := kept callable found callable?
      rw [eval_define_signature evaluated sugared, eval_define_name evaluated expanded]
      have grown := (EvalM.mirrors_list (f := .nothing)
        (.symbol .lambda :: params :: first :: forms)).grows s₁
      obtain ⟨count, moved⟩ := Nat.exists_eq_add_of_le grown
      have listed := Alloc.elements?_list (.symbol .lambda :: params :: first :: forms)
        s₁.nextAddress
      have alike := bindTo_of_elements { ctx with depth := ctx.depth + 1 } scope name listed headed
      have made : (EvalM.alloc (Alloc.list (.symbol .lambda :: params :: first :: forms)) >>=
          Context.bindTo { ctx with depth := ctx.depth + 1 } scope name) s₁ =
          Context.bindTo { ctx with depth := ctx.depth + 1 } scope name function
            { s₁ with nextAddress := s₁.nextAddress + count } := by
        rw [← moved, ← alike]
        rfl
      rw [made]
      refine alikeFrom_bindTo _ scope name storeBelow (fun f fixed => ?_) count
      have same := Value.moving_eq_self fixed termBelow
      exact Value.rename_of_mem_elements? same expanded (by simp)

/-- **A definition with a signature does what its expansion does.**  Let one term be
`(define (name . params) first forms...)`, whatever `params` is, and another one be
`(define name (lambda params first forms...))`.  In every context, so with every number of levels
left and under all grants, and in every scope where `define` has not been bound to something else
that can be called, the two have the same outcome, be it a value or an error, and print the same.
The stores that they end with differ in addresses only, and in those only that have been taken
since. -/
theorem eval_signature
    (sugared : sugar.elements? = some
      (.symbol (.global "define") :: .pair address (.symbol name) params :: first :: forms))
    (expanded : expansion.elements? = some [.symbol (.global "define"), .symbol name, function])
    (headed : function.elements? = some (.symbol .lambda :: params :: first :: forms))
    (kept : ∀ v, s.lookup scope (.global "define") = .ok v → v.isCallable = true →
      v = .builtin (.form .define))
    (storeBelow : s.Below s.nextAddress) (termBelow : expansion.Below s.nextAddress) :
    EvalM.outcome (ctx.eval scope sugar) s = EvalM.outcome (ctx.eval scope expansion) s ∧
    (EvalM.after (ctx.eval scope sugar) s).output =
      (EvalM.after (ctx.eval scope expansion) s).output ∧
    ∃ (f : Address → Address) (next : Address),
      Function.Injective f ∧ (∀ a < s.nextAddress, f a = a) ∧
      EvalM.after (ctx.eval scope sugar) s =
        (EvalM.after (ctx.eval scope expansion) s).rename f next := by
  obtain ⟨f, next, injective, fixed, same⟩ :=
    alikeFrom_eval_signature sugared expanded headed kept storeBelow termBelow
  have outcomes : EvalM.outcome (ctx.eval scope sugar) s =
      EvalM.outcome (ctx.eval scope expansion) s := by
    unfold EvalM.outcome
    rw [same]
    cases (ctx.eval scope expansion : EvalM Value) s <;> rfl
  have stores : EvalM.after (ctx.eval scope sugar) s =
      (EvalM.after (ctx.eval scope expansion) s).rename f next := by
    unfold EvalM.after
    rw [same]
    cases (ctx.eval scope expansion : EvalM Value) s <;> rfl
  have printed : (EvalM.after (ctx.eval scope sugar) s).output =
      (EvalM.after (ctx.eval scope expansion) s).output := by
    rw [stores]
    rfl
  exact ⟨outcomes, printed, f, next, injective, fixed, stores⟩

end Context

/-- A frame in which `define` has its first meaning, while `lambda` stands for a number. -/
def withoutLambda : Store where
  frames := #[{ entries := [(.global "define", { value := some (.builtin (.form .define)) }),
    (.lambda, { value := some (.integer 1) })] }]
  nextAddress := 1

/-- The term `(define (f . 2) 3)`. -/
def definedBySignature : Value :=
  .applied (.symbol (.global "define")) [.pair 0 (.symbol ⟨35, "f"⟩) (.integer 2), .integer 3]

/-- The term `(define f (lambda 2 3))`. -/
def definedByName : Value :=
  .applied (.symbol (.global "define"))
    [.symbol ⟨35, "f"⟩, .applied (.symbol .lambda) [.integer 2, .integer 3]]

theorem eval_signature_withoutLambda :
    withoutLambda.Below withoutLambda.nextAddress ∧
    definedByName.Below withoutLambda.nextAddress ∧
    withoutLambda.lookup ⟨0, []⟩ (.global "define") = .ok (.builtin (.form .define)) ∧
    EvalM.outcome (Context.eval {} ⟨0, []⟩ definedByName) withoutLambda =
      .error (.notCallable (.value "1" .integer)) ∧
    EvalM.outcome (Context.eval {} ⟨0, []⟩ definedBySignature) withoutLambda =
      .error (.notCallable (.value "1" .integer)) := by
  have storeBelow : withoutLambda.Below withoutLambda.nextAddress := by
    have same : withoutLambda.rename (skipping 1) 1 = withoutLambda := by decide +kernel
    exact Store.below_of_rename_skipping same
  have termBelow : definedByName.Below withoutLambda.nextAddress := by
    simp [definedByName, withoutLambda, Value.applied, Value.Within]
  have named : withoutLambda.lookup ⟨0, []⟩ (.global "define") =
      .ok (.builtin (.form .define)) := by
    decide +kernel
  have expanded : EvalM.outcome (Context.eval {} ⟨0, []⟩ definedByName) withoutLambda =
      .error (.notCallable (.value "1" .integer)) := by decide +kernel
  have kept : ∀ v, withoutLambda.lookup ⟨0, []⟩ (.global "define") = .ok v → v.isCallable = true →
      v = .builtin (.form .define) := by
    intro v found _
    exact (Except.ok.inj (named.symm.trans found)).symm
  have same : EvalM.outcome (Context.eval {} ⟨0, []⟩ definedBySignature) withoutLambda =
      EvalM.outcome (Context.eval {} ⟨0, []⟩ definedByName) withoutLambda :=
    (Context.eval_signature rfl rfl rfl kept storeBelow termBelow).1
  exact ⟨storeBelow, termBelow, named, expanded, same.trans expanded⟩

end GuardedLisp
