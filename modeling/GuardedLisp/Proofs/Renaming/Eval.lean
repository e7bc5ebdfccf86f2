import GuardedLisp.Proofs.Renaming.Mirror
import Mathlib.Data.List.Basic

/-!
# Evaluation with renamed addresses and symbols

Evaluation of renamed terms mirrors evaluation of the terms as they were.  The two sides handle
different values, so this is not a `Simulation`, whose two sides are given the same terms.  It has
its own induction over the evaluator, which goes by the same pieces.

## Main definitions

* `Level.Mirrors`: a level that does with renamed terms what it does with the terms as they were

## Main results

* `mirrors_apply`, `mirrors_evalTerm`, `mirrors_expandChain`: one level
* `Context.mirrors_eval`: evaluation does not depend on what addresses are called, nor on how
  symbols are numbered
-/

namespace GuardedLisp

open EvalM
open Machine (act fail bindParams)

/-! ## What needs no level -/

section Pieces

variable (f : Renaming)

theorem mirrors_bindParams (params : Params) (args : List Value) (scope : Scope) :
    Mirrors f id (bindParams params args scope : EvalM Unit)
      (bindParams (params.rename f) (args.map (Value.rename f)) scope) := by
  unfold bindParams
  rw [List.length_map, Params.arity_rename]
  refine mirrors_bind_same (mirrors_check _) fun _ => ?_
  refine mirrors_bind_same ?_ fun _ => ?_
  · rw [Params.rename, List.zip_map]
    refine mirrors_forM (fun bound => ?_) _
    exact mirrors_act f (.define scope bound.1 bound.2)
  · rw [Params.rename]
    cases params.rest with
    | none => exact mirrors_pure id ()
    | some name =>
      dsimp only [Option.map_some]
      rw [← List.map_drop, List.length_map]
      refine mirrors_bind (mirrors_act f (.list (args.drop params.fixed.length))) fun surplus => ?_
      exact mirrors_act f (.define scope name surplus)

/-- A primitive refuses a wrong number of arguments. -/
theorem Primitive.run_of_length_ne {op : Primitive} {args : List Value}
    (wrong : args.length ≠ op.argumentCount) :
    op.run args = (fail (.arity (.exactly op.argumentCount) args.length none) : EvalM Value) := by
  unfold Primitive.run
  split
  all_goals first | rfl | exact absurd rfl wrong

/-- A step whose result is dropped. -/
theorem mirrors_act_nil (action : Action α) :
    Mirrors f (Value.rename f) (act action >>= fun _ => pure .nil : EvalM Value)
      (act (action.rename f) >>= fun _ => pure .nil) :=
  mirrors_bind (mirrors_act f action) fun _ => mirrors_pure (Value.rename f) .nil

theorem mirrors_primitive {f : Renaming} (injective : Function.Injective f.address)
    (op : Primitive) (args : List Value) :
    Mirrors f (Value.rename f) (op.run args : EvalM Value)
      (op.run (args.map (Value.rename f))) := by
  by_cases right : args.length = op.argumentCount
  · cases op with
    | display =>
      obtain ⟨v, rfl⟩ := List.length_eq_one_iff.mp right
      simp only [List.map_cons, List.map_nil, Primitive.run, Value.displayed_rename]
      exact mirrors_act_nil f (.print v.displayed)
    | newline =>
      obtain rfl := List.length_eq_zero_iff.mp right
      exact mirrors_act_nil f (.print "\n")
    | cons =>
      obtain ⟨v, w, rfl⟩ := List.length_eq_two.mp right
      exact mirrors_act f (.pair v w)
    | part which =>
      obtain ⟨v, rfl⟩ := List.length_eq_one_iff.mp right
      simp only [List.map_cons, List.map_nil, Primitive.run, PairPart.of_rename]
      exact mirrors_ofExcept (Value.rename f) (which.of v)
    | same =>
      obtain ⟨v, w, rfl⟩ := List.length_eq_two.mp right
      simp only [List.map_cons, List.map_nil, Primitive.run, Value.same_rename v injective]
      exact mirrors_pure (Value.rename f) (.bool (v.same w))
    | alike =>
      obtain ⟨v, w, rfl⟩ := List.length_eq_two.mp right
      simp only [List.map_cons, List.map_nil, Primitive.run, Value.alike_rename v injective]
      exact mirrors_pure (Value.rename f) (.bool (v.alike w))
    | arithmetic operation =>
      obtain ⟨v, w, rfl⟩ := List.length_eq_two.mp right
      simp only [List.map_cons, List.map_nil, Primitive.run, Value.toInteger_rename]
      refine mirrors_bind_same (mirrors_check _) fun a => ?_
      refine mirrors_bind_same (mirrors_check _) fun b => ?_
      exact mirrors_bind_same (mirrors_check _) fun n => mirrors_pure (Value.rename f) (.integer n)
    | comparison operation =>
      obtain ⟨v, w, rfl⟩ := List.length_eq_two.mp right
      simp only [List.map_cons, List.map_nil, Primitive.run, Value.toInteger_rename]
      refine mirrors_bind_same (mirrors_check _) fun a => ?_
      refine mirrors_bind_same (mirrors_check _) fun b => ?_
      exact mirrors_pure (Value.rename f) (.bool (operation.holds a b))
  · rw [Primitive.run_of_length_ne right, Primitive.run_of_length_ne (by rwa [List.length_map]),
      List.length_map]
    exact mirrors_fail (Value.rename f) _

theorem mirrors_makeClosure (scope : Scope) (kind : ClosureKind) (args : List Value) :
    Mirrors f (Value.rename f) (makeClosure scope kind args : EvalM Value)
      (makeClosure scope kind (args.map (Value.rename f))) := by
  match args with
  | [] | [_] => exact mirrors_fail _ _
  | params :: first :: body =>
    have begun : Value.rename f (.symbol .begin) = .symbol .begin :=
      congrArg Value.symbol (Symbol.rename_keyword f (by decide))
    simp only [List.map_cons, makeClosure, Params.ofTerm_rename]
    refine mirrors_bind (mirrors_ofExcept (Params.rename f) _) fun params => ?_
    have listed := mirrors_act f (.list (.symbol .begin :: first :: body))
    simp only [Action.rename, List.map_cons, begun] at listed
    refine mirrors_bind listed fun body => ?_
    exact mirrors_act f (.closure kind params body scope)

theorem mirrors_notCallable (v : Value) :
    Mirrors f (Value.rename f) (fail (.notCallable (.value v.text v.kind)) : EvalM Value)
      (fail (.notCallable (.value (v.rename f).text (v.rename f).kind))) := by
  rw [Value.text_rename, Value.kind_rename]
  exact mirrors_fail _ _

/-- One of two computations, of which the value of a condition selects the first. -/
theorem mirrors_choice {yes no : EvalM Value} {yes' no' : EvalM Value} (condition : Value)
    (first : Mirrors f (Value.rename f) yes yes') (second : Mirrors f (Value.rename f) no no') :
    Mirrors f (Value.rename f) (match condition with | .bool true => yes | _ => no)
      (match condition.rename f with | .bool true => yes' | _ => no') := by
  cases condition with
  | bool value =>
    cases value with
    | true => exact first
    | false => exact second
  | _ => exact second

end Pieces

/-! ## One level -/

/-- A level whose evaluators do with renamed terms what they do with the terms as they were. -/
structure Level.Mirrors (f : Renaming) (inner : Level EvalM) : Prop where
  eval (grants : Grants) (scope : Scope) (term : Value) :
    EvalM.Mirrors f (Value.rename f) (inner.eval grants scope term)
      (inner.eval grants scope (term.rename f))
  expand (grants : Grants) (scope : Scope) (template : Value) :
    EvalM.Mirrors f (Value.rename f) (inner.expand grants scope template)
      (inner.expand grants scope (template.rename f))

section Level

variable {f : Renaming} {inner : Level EvalM} (level : inner.Mirrors f)
  (grants : Grants) (scope : Scope)

include level

theorem mirrors_evalAll (terms : List Value) :
    Mirrors f (List.map (Value.rename f)) (inner.evalAll grants scope terms)
      (inner.evalAll grants scope (terms.map (Value.rename f))) :=
  mirrors_mapM (level.eval grants scope) terms

theorem mirrors_evalLast (term : Value) (terms : List Value) :
    Mirrors f (Value.rename f) (inner.evalLast grants scope term terms)
      (inner.evalLast grants scope (term.rename f) (terms.map (Value.rename f))) := by
  induction terms generalizing term with
  | nil => exact level.eval grants scope term
  | cons next terms ih => exact mirrors_bind (level.eval grants scope term) fun _ => ih next

theorem mirrors_evalClass (term : Value) :
    Mirrors f id (inner.evalClass grants scope term)
      (inner.evalClass grants scope (term.rename f)) := by
  refine mirrors_bind (level.eval grants scope term) fun v => ?_
  cases v with
  | classObject target => exact mirrors_pure id target
  | _ =>
    exact mirrors_fail_of_eq id
      (congrArg₂ (fun shown kind => Error.type (.classRequired shown kind) none)
        (Value.text_rename f _) (Value.kind_rename f _))

theorem mirrors_define (args : List Value) :
    Mirrors f (Value.rename f) (inner.define grants scope args)
      (inner.define grants scope (args.map (Value.rename f))) := by
  match args with
  | [] => exact mirrors_fail _ _
  | [head] =>
    cases head with
    | pair _ name _ => cases name <;> exact mirrors_fail _ _
    | _ => exact mirrors_fail _ _
  | [.symbol name, term] =>
    refine mirrors_bind (level.eval grants scope term) fun value => ?_
    exact mirrors_act_nil f (.define scope name value)
  | .symbol _ :: _ :: _ :: _ => exact mirrors_fail _ _
  | .pair _ head params :: first :: body =>
    cases head with
    | symbol name =>
      have headed : Value.rename f (.symbol .lambda) = .symbol .lambda :=
        congrArg Value.symbol (Symbol.rename_keyword f (by decide))
      have listed := mirrors_act f (.list (.symbol .lambda :: params :: first :: body))
      simp only [Action.rename, List.map_cons, headed] at listed
      refine mirrors_bind listed fun term => mirrors_bind (level.eval grants scope term)
        fun value => ?_
      exact mirrors_act_nil f (.define scope name value)
    | _ =>
      exact mirrors_fail_of_eq _
        (congrArg (fun shown => Error.form (.definedName shown)) (Value.text_rename f _))
  | .nil :: _ :: _ | .integer _ :: _ :: _ | .string _ _ :: _ :: _ | .bool _ :: _ :: _
  | .closure _ _ _ _ _ :: _ :: _ | .builtin _ :: _ :: _ | .classObject _ :: _ :: _ =>
    exact mirrors_fail _ _

theorem mirrors_assign (args : List Value) :
    Mirrors f (Value.rename f) (inner.assign grants scope args)
      (inner.assign grants scope (args.map (Value.rename f))) := by
  match args with
  | [] => exact mirrors_fail _ _
  | [target] => cases target <;> exact mirrors_fail _ _
  | [target, term] =>
    cases target with
    | symbol name =>
      refine mirrors_bind (level.eval grants scope term) fun value => ?_
      exact mirrors_act_nil f (.assign scope name value)
    | _ => exact mirrors_fail _ _
  | target :: term :: other :: rest =>
    cases target <;>
      exact mirrors_fail_of_eq _ (by simp only [List.length_cons, List.length_map])

theorem mirrors_branch (args : List Value) :
    Mirrors f (Value.rename f) (inner.branch grants scope args)
      (inner.branch grants scope (args.map (Value.rename f))) := by
  match args with
  | [] | [_] => exact mirrors_fail _ _
  | [condition, consequent] =>
    refine mirrors_bind (level.eval grants scope condition) fun v => ?_
    exact mirrors_choice f v (level.eval grants scope consequent)
      (mirrors_pure (Value.rename f) .nil)
  | [condition, consequent, alternative] =>
    refine mirrors_bind (level.eval grants scope condition) fun v => ?_
    exact mirrors_choice f v (level.eval grants scope consequent)
      (level.eval grants scope alternative)
  | _ :: _ :: _ :: _ :: rest =>
    simp only [List.map_cons, Level.branch, List.length_cons, List.length_map]
    exact mirrors_fail _ _

theorem mirrors_newClass (args : List Value) :
    Mirrors f (Value.rename f) (inner.newClass grants scope args)
      (inner.newClass grants scope (args.map (Value.rename f))) := by
  unfold Level.newClass
  refine mirrors_bind (mirrors_mapM (mirrors_evalClass level grants scope) args) fun parents => ?_
  rw [List.map_id]
  refine mirrors_bind (mirrors_act f (.newClass parents)) fun target => ?_
  exact mirrors_pure (Value.rename f) (.classObject target)

theorem mirrors_classDefine (args : List Value) :
    Mirrors f (Value.rename f) (inner.classDefine grants scope args)
      (inner.classDefine grants scope (args.map (Value.rename f))) := by
  match args with
  | [] | [_] => exact mirrors_fail _ _
  | [target, name] =>
    simp only [List.map_cons, List.map_nil, Level.classDefine, LiteralRole.read_rename]
    refine mirrors_bind_same (mirrors_evalClass level grants scope target) fun id => ?_
    refine mirrors_bind (mirrors_ofExcept (Symbol.rename f) _) fun name => ?_
    exact mirrors_act_nil f (.defineSlot id name none)
  | [target, name, datatype] =>
    simp only [List.map_cons, List.map_nil, Level.classDefine, LiteralRole.read_rename,
      Datatype.ofTerm_rename]
    refine mirrors_bind_same (mirrors_evalClass level grants scope target) fun id => ?_
    refine mirrors_bind (mirrors_ofExcept (Symbol.rename f) _) fun name => ?_
    refine mirrors_bind_same (mirrors_check _) fun datatype => ?_
    exact mirrors_act_nil f (.defineSlot id name (some datatype))
  | _ :: _ :: _ :: _ :: rest =>
    simp only [List.map_cons, Level.classDefine, List.length_cons, List.length_map]
    exact mirrors_fail _ _

theorem mirrors_classSet (args : List Value) :
    Mirrors f (Value.rename f) (inner.classSet grants scope args)
      (inner.classSet grants scope (args.map (Value.rename f))) := by
  match args with
  | [] | [_] | [_, _] => exact mirrors_fail _ _
  | [target, name, term] =>
    simp only [List.map_cons, List.map_nil, Level.classSet, LiteralRole.read_rename]
    refine mirrors_bind_same (mirrors_evalClass level grants scope target) fun id => ?_
    refine mirrors_bind (mirrors_ofExcept (Symbol.rename f) _) fun name => ?_
    refine mirrors_bind (level.eval grants scope term) fun value => ?_
    exact mirrors_act_nil f (.writeSlot id name value (grants.access id))
  | _ :: _ :: _ :: _ :: rest =>
    simp only [List.map_cons, Level.classSet, List.length_cons, List.length_map]
    exact mirrors_fail _ _

theorem mirrors_classChmod (args : List Value) :
    Mirrors f (Value.rename f) (inner.classChmod grants scope args)
      (inner.classChmod grants scope (args.map (Value.rename f))) := by
  match args with
  | [] | [_] => exact mirrors_fail _ _
  | target :: name :: flags =>
    have same : (flags.map (Value.rename f)).mapM PermissionFlag.ofTerm =
        flags.mapM PermissionFlag.ofTerm := by
      rw [List.mapM_map]
      exact congrArg (flags.mapM ·) (funext (PermissionFlag.ofTerm_rename f))
    simp only [List.map_cons, Level.classChmod, LiteralRole.read_rename, same]
    refine mirrors_bind_same (mirrors_evalClass level grants scope target) fun id => ?_
    refine mirrors_bind (mirrors_ofExcept (Symbol.rename f) _) fun name => ?_
    refine mirrors_bind_same (mirrors_check _) fun flags => ?_
    exact mirrors_act_nil f (.chmodSlot id name flags)

theorem mirrors_classFinalize (args : List Value) :
    Mirrors f (Value.rename f) (inner.classFinalize grants scope args)
      (inner.classFinalize grants scope (args.map (Value.rename f))) := by
  match args with
  | [] => exact mirrors_fail _ _
  | [target] =>
    refine mirrors_bind_same (mirrors_evalClass level grants scope target) fun id => ?_
    exact mirrors_act_nil f (.finalise id)
  | _ :: _ :: rest =>
    simp only [List.map_cons, Level.classFinalize, List.length_cons, List.length_map]
    exact mirrors_fail _ _

theorem mirrors_applyForm (form : SpecialForm) (args : List Value) :
    Mirrors f (Value.rename f) (inner.applyForm grants scope form args)
      (inner.applyForm grants scope form (args.map (Value.rename f))) := by
  cases form with
  | quote =>
    match args with
    | [] => exact mirrors_fail _ _
    | [term] => exact mirrors_pure (Value.rename f) term
    | _ :: _ :: rest =>
      simp only [List.map_cons, Level.applyForm, List.length_cons, List.length_map]
      exact mirrors_fail _ _
  | assign => exact mirrors_assign level grants scope args
  | define => exact mirrors_define level grants scope args
  | branch => exact mirrors_branch level grants scope args
  | lambda => exact mirrors_makeClosure f scope .function args
  | begin =>
    cases args with
    | nil => exact mirrors_fail _ _
    | cons term terms => exact mirrors_evalLast level grants scope term terms
  | newClass => exact mirrors_newClass level grants scope args
  | classDefine => exact mirrors_classDefine level grants scope args
  | classSet => exact mirrors_classSet level grants scope args
  | classChmod => exact mirrors_classChmod level grants scope args
  | classFinalize => exact mirrors_classFinalize level grants scope args
  | transformer => exact mirrors_makeClosure f scope .transformer args
  | quasiquote =>
    match args with
    | [] => exact mirrors_fail _ _
    | [template] => exact level.expand grants scope template
    | _ :: _ :: rest =>
      simp only [List.map_cons, Level.applyForm, List.length_cons, List.length_map]
      exact mirrors_fail _ _
  | unquote => exact mirrors_fail _ _

theorem mirrors_unquote (part operands : Value) :
    Mirrors f (Value.rename f) (inner.unquote grants scope part operands)
      (inner.unquote grants scope (part.rename f) (operands.rename f)) := by
  unfold Level.unquote
  rw [Value.elements_rename]
  refine mirrors_bind (mirrors_ofExcept (List.map (Value.rename f)) _) fun terms => ?_
  match terms with
  | [] =>
    rw [Value.text_rename]
    exact mirrors_fail _ _
  | [term] => exact level.eval grants scope term
  | _ :: _ :: rest =>
    simp only [List.map_cons, List.length_cons, List.length_map, Value.text_rename]
    exact mirrors_fail _ _

/-- Expansion of a chain walks the chain, so this is an induction on the template. -/
theorem mirrors_expandChain (template : Value) :
    Mirrors f (Value.rename f) (inner.expandChain grants scope template)
      (inner.expandChain grants scope (template.rename f)) := by
  induction template with
  | pair address first rest _ ih =>
    have shown := Value.text_rename f (.pair address first rest)
    simp only [Value.rename] at shown
    simp only [Value.rename, Level.expandChain, TemplateMark.ofHead?_rename, shown]
    split
    · exact mirrors_unquote level grants scope (.pair address first rest) rest
    · exact mirrors_pure (Value.rename f) (.pair address first rest)
    · exact mirrors_fail _ _
    · refine mirrors_bind (level.expand grants scope first) fun first => ?_
      exact mirrors_bind ih fun rest => mirrors_act f (.pair first rest)
  | string address text => exact mirrors_pure (Value.rename f) (.string address text)
  | closure address kind params body home =>
    exact mirrors_pure (Value.rename f) (.closure address kind params body home)
  | _ => exact mirrors_pure (Value.rename f) _

theorem mirrors_applyFunction (params : Params) (body : Value) (home : Scope)
    (args : List Value) :
    Mirrors f (Value.rename f) (inner.applyFunction grants scope params body home args)
      (inner.applyFunction grants scope (params.rename f) (body.rename f) home
        (args.map (Value.rename f))) := by
  unfold Level.applyFunction
  refine mirrors_bind (mirrors_evalAll level grants scope args) fun values => ?_
  refine mirrors_bind (mirrors_act f (.enter home)) fun frame => ?_
  refine mirrors_bind_same (mirrors_bindParams f params values frame) fun _ => ?_
  exact level.eval grants frame body

theorem mirrors_applyTransformer (params : Params) (body : Value) (home : Scope)
    (args : List Value) :
    Mirrors f (Value.rename f) (inner.applyTransformer grants scope params body home args)
      (inner.applyTransformer grants scope (params.rename f) (body.rename f) home
        (args.map (Value.rename f))) := by
  unfold Level.applyTransformer
  refine mirrors_bind (mirrors_act f (.enter home)) fun frame => ?_
  refine mirrors_bind_same (mirrors_bindParams f params args frame) fun _ => ?_
  refine mirrors_bind (level.eval grants frame body) fun expansion => ?_
  exact level.eval grants scope expansion

theorem mirrors_selectSlot (selector : Value) :
    Mirrors f (Symbol.rename f) (inner.selectSlot grants scope selector)
      (inner.selectSlot grants scope (selector.rename f)) := by
  cases selector with
  | symbol name => exact mirrors_pure (Symbol.rename f) name
  | _ =>
    refine mirrors_bind (level.eval grants scope _) fun v => ?_
    cases v with
    | symbol name => exact mirrors_pure (Symbol.rename f) name
    | _ =>
      exact mirrors_fail_of_eq (Symbol.rename f)
        (congrArg (fun kind => Error.type (.selector kind) none) (Value.kind_rename f _))

variable (injective : Function.Injective f.address)

include injective

theorem mirrors_applyBuiltin (op : Builtin) (args : List Value) :
    Mirrors f (Value.rename f) (inner.applyBuiltin grants scope op args)
      (inner.applyBuiltin grants scope op (args.map (Value.rename f))) := by
  cases op with
  | form form => exact mirrors_applyForm level grants scope form args
  | primitive op =>
    refine mirrors_bind (mirrors_evalAll level grants scope args) fun values => ?_
    rw [List.length_map]
    exact mirrors_bind_same (mirrors_check _) fun _ => mirrors_primitive injective op values

/-- Only classes call what they find. -/
theorem mirrors_apply_of_classObject (args : List Value)
    (classes : ∀ target, Mirrors f (Value.rename f)
      (inner.apply grants scope (.classObject target) args)
      (inner.apply grants scope (.classObject target) (args.map (Value.rename f))))
    (callable : Value) :
    Mirrors f (Value.rename f) (inner.apply grants scope callable args)
      (inner.apply grants scope (callable.rename f) (args.map (Value.rename f))) := by
  cases callable with
  | builtin op =>
    have called := mirrors_applyBuiltin level grants scope injective op args
    cases args <;> exact called
  | closure address kind params body home =>
    cases kind with
    | function =>
      have called := mirrors_applyFunction level grants scope params body home args
      cases args <;> exact called
    | transformer =>
      have called := mirrors_applyTransformer level grants scope params body home args
      cases args <;> exact called
  | classObject target => exact classes target
  | _ => cases args <;> exact mirrors_notCallable f _

/-- A chain of selectors is an induction on the arguments. -/
theorem mirrors_apply (callable : Value) (args : List Value) :
    Mirrors f (Value.rename f) (inner.apply grants scope callable args)
      (inner.apply grants scope (callable.rename f) (args.map (Value.rename f))) := by
  induction args generalizing grants scope callable with
  | nil =>
    refine mirrors_apply_of_classObject level grants scope injective [] (fun target => ?_) callable
    exact mirrors_fail _ _
  | cons selector args ih =>
    refine mirrors_apply_of_classObject level grants scope injective (selector :: args)
      (fun target => ?_) callable
    refine mirrors_bind (mirrors_selectSlot level grants scope selector) fun name => ?_
    refine mirrors_bind (mirrors_act f (.readSlot target name (grants.access target))) fun v => ?_
    simp only [Action.relabel, Value.isCalledWith_rename, List.isEmpty_map, Value.text_rename,
      Value.kind_rename]
    split
    · refine mirrors_bind (mirrors_act f (.enter scope)) fun frame => ?_
      have named : Symbol.self.rename f = .self := Symbol.rename_keyword f (by decide)
      have defined := mirrors_act f (.define frame .self (.classObject target))
      simp only [Action.rename, named] at defined
      exact mirrors_bind defined fun _ => ih (target :: grants) frame v
    · split
      · exact mirrors_pure (Value.rename f) v
      · exact mirrors_fail _ _

theorem mirrors_evalTerm (term : Value) :
    Mirrors f (Value.rename f) (inner.evalTerm grants scope term)
      (inner.evalTerm grants scope (term.rename f)) := by
  cases term with
  | symbol name => exact mirrors_act f (.lookup scope name)
  | pair address first rest =>
    simp only [Value.rename, Level.evalTerm, Value.elements_rename]
    refine mirrors_bind (level.eval grants scope first) fun callable => ?_
    refine mirrors_bind (mirrors_ofExcept (List.map (Value.rename f)) _) fun args => ?_
    exact mirrors_during (.pair address first rest)
      (mirrors_apply level grants scope injective callable args)
  | string address text => exact mirrors_pure (Value.rename f) (.string address text)
  | closure address kind params body home =>
    exact mirrors_pure (Value.rename f) (.closure address kind params body home)
  | _ => exact mirrors_pure (Value.rename f) _

end Level

/-! ## All levels -/

theorem mirrors_evalAt {f : Renaming} (injective : Function.Injective f.address)
    (limit left : Nat) : Level.Mirrors f ⟨evalAt limit left, expandAt limit left⟩ := by
  induction left with
  | zero =>
    constructor
    · intro grants scope term
      exact mirrors_fail _ _
    · intro grants scope template
      cases template with
      | pair address first rest => exact mirrors_fail _ _
      | _ => exact mirrors_pure (Value.rename f) _
  | succ left level =>
    constructor
    · intro grants scope term
      exact mirrors_evalTerm level grants scope injective term
    · intro grants scope template
      exact mirrors_expandChain level grants scope template

/-- **Evaluation does not depend on what addresses are called, nor on how symbols are numbered.**
In a store that has been renamed, a renamed term ends with the renamed value or with the same error,
and in the renamed store.  No two addresses and no two symbols may become the same, keywords have to
stay as they are, and the addresses that are taken have to be renamed to fresh ones in order. -/
theorem Context.mirrors_eval {f : Renaming} (injective : Function.Injective f.address)
    (ctx : Context) (scope : Scope) (term : Value) :
    Mirrors f (Value.rename f) (ctx.eval scope term) (ctx.eval scope (term.rename f)) :=
  (mirrors_evalAt injective ctx.limit (ctx.limit - ctx.depth)).eval ctx.grants scope term

end GuardedLisp
