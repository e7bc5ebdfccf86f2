import GuardedLisp.Proofs.Activation
import GuardedLisp.Proofs.Chain
import GuardedLisp.Proofs.Depth
import GuardedLisp.Proofs.Innermost
import GuardedLisp.Proofs.Slots

/-!
# Calling closures

The body of a closure is a term headed by the symbol `begin`, and this symbol is looked up when the
closure is called.  As long as it has its first meaning in the frame of the call, the terms of the
body are evaluated in order, as if they had been kept as they were written.  Nothing else that is
bound in a frame has a part in the call, be it the name of a form or not.

## Main definitions

* `Params.bind`, `Context.prepare`: the frame that a call makes
* `Context.applyTerms`: the terms of a body, evaluated in order in the frame of a call
* `Context.BeginsIn`: the symbol `begin` has its first meaning in the frame of a call

## Main results

* `Context.eval_begin`: a term headed by `begin` evaluates the terms after it in order
* `Store.lookup_prepare`: a call keeps what names stand for if they are not among its parameters
* `Context.apply_lambda`: to call a closure is to evaluate its terms in a frame of its parameters
-/

namespace GuardedLisp

open Machine (bindParams)

/-! ## Bodies -/

namespace Context

variable {s : Store} {frame : Scope} {address : Address} {body first : Value} {terms : List Value}

theorem eval_symbol {ctx : Context} (room : ctx.depth < ctx.limit) (scope : Scope)
    (name : Symbol) : ctx.eval scope (.symbol name) = EvalM.lookup scope name := by
  have entered : ctx.enter = .ok { ctx with depth := ctx.depth + 1 } := if_neg (Nat.not_le.mpr room)
  rw [eval_eq_body]
  simp only [Activation.body, entered]
  rfl

theorem eval_symbol_of_full {ctx : Context} (full : ctx.limit ≤ ctx.depth) (scope : Scope)
    (name : Symbol) (s : Store) :
    (ctx.eval scope (.symbol name) : EvalM Value) s = .error (.tooDeep ctx.limit) s := by
  have refused : ctx.enter = .error (.tooDeep ctx.limit) := if_pos full
  rw [eval_eq_body]
  simp only [Activation.body, refused]
  rfl

/-- Once its head has been evaluated, an application calls what the head stands for. -/
theorem eval_pair {ctx : Context} {scope : Scope} {head rest callable : Value} {s₁ : Store}
    (evaluated : (Context.eval { ctx with depth := ctx.depth + 1 } scope head : EvalM Value) s =
      .ok callable s₁) :
    (ctx.eval scope (.pair address head rest) : EvalM Value) s =
      (do
        let args ← Machine.ofExcept rest.elements
        EvalM.during (.pair address head rest)
          (Context.apply { ctx with depth := ctx.depth + 1 } scope callable args) :
        EvalM Value) s₁ := by
  have room : ctx.depth < ctx.limit := by
    by_contra full
    have none : ctx.limit - (ctx.depth + 1) = 0 := by omega
    simp only [Context.eval, level, none] at evaluated
    cases evaluated
  have entered : ctx.enter = .ok { ctx with depth := ctx.depth + 1 } := if_neg (Nat.not_le.mpr room)
  rw [eval_eq_body]
  simp only [Activation.body, entered, Activation.evalBody]
  exact EvalM.bind_of_ok evaluated _

/-- A term headed by `begin` evaluates the terms after it in order, one level further in. -/
theorem eval_begin {ctx inner : Context} (entered : ctx.enter = .ok inner)
    (room : inner.depth < inner.limit) (proper : body.elements? = some (first :: terms))
    (named : s.lookup frame .begin = .ok (.builtin (.form .begin))) :
    (ctx.eval frame (.pair address (.symbol .begin) body) : EvalM Value) s =
      (inner.level.evalLast inner.grants frame first terms : EvalM Value) s := by
  have head : (inner.eval frame (.symbol .begin) : EvalM Value) s =
      .ok (.builtin (.form .begin)) s := by
    simp only [eval_symbol room, EvalM.lookup, EvalM.ask, named]
  rw [eval_eq_body]
  simp only [Activation.body, entered, Activation.evalBody, Value.elements, proper]
  refine (EvalM.bind_of_ok head _).trans ?_
  show EvalM.during _ (inner.apply frame (.builtin (.form .begin)) (first :: terms)) s = _
  rw [apply_eq_body]
  exact congrFun ((placed_evalLast inner frame first terms).during_eq _) s

/-- With no level left for the symbol `begin`, the limit is reached. -/
theorem eval_begin_of_full {ctx inner : Context} (entered : ctx.enter = .ok inner)
    (full : inner.limit ≤ inner.depth) :
    (ctx.eval frame (.pair address (.symbol .begin) body) : EvalM Value) s =
      .error (.tooDeep inner.limit) s := by
  rw [eval_eq_body]
  simp only [Activation.body, entered, Activation.evalBody]
  exact EvalM.bind_of_error (eval_symbol_of_full full frame .begin s) _

/-- A settled term headed by `begin` evaluates the terms after it in order, with as many levels as
there are for the whole. -/
theorem eval_begin_of_settled (ctx : Context) (proper : body.elements? = some (first :: terms))
    (named : s.lookup frame .begin = .ok (.builtin (.form .begin)))
    (settled : Settled (EvalM.outcome
      (ctx.eval frame (.pair address (.symbol .begin) body)) s)) :
    (ctx.eval frame (.pair address (.symbol .begin) body) : EvalM Value) s =
      (ctx.level.evalLast ctx.grants frame first terms : EvalM Value) s := by
  cases entered : ctx.enter with
  | error e =>
    obtain ⟨rfl, -⟩ := enter_eq_error entered
    rw [eval_eq_body] at settled
    simp only [Activation.body, entered] at settled
    exact absurd rfl (settled ctx.limit)
  | ok inner =>
    rcases Nat.lt_or_ge inner.depth inner.limit with room | full
    · have fewer : inner.left ≤ ctx.left := left_of_enter entered ▸ Nat.le_succ _
      obtain ⟨-, rfl⟩ := enter_eq_ok entered
      have same : (ctx.eval frame (.pair address (.symbol .begin) body) : EvalM Value) s = _ :=
        eval_begin entered room proper named
      rw [EvalM.outcome, same] at settled
      rw [same]
      have levels := Simulation.levels_of_le ctx.limit ctx.limit fewer
      exact (Simulation.rel_evalLast levels rfl frame first terms s settled).symm
    · rw [EvalM.outcome, eval_begin_of_full entered full] at settled
      exact absurd rfl (settled inner.limit)

theorem evalLast_of_none {ctx : Context} (none : ctx.left = 0) :
    (ctx.level.evalLast ctx.grants frame first terms : EvalM Value) s =
      .error (.tooDeep ctx.limit) s := by
  have refused : (ctx.level.eval ctx.grants frame first : EvalM Value) s =
      .error (.tooDeep ctx.limit) s := by
    unfold left at none
    simp only [level, none]
    rfl
  cases terms with
  | nil => exact refused
  | cons next terms => exact EvalM.bind_of_error refused _

/-- With a level more, a term headed by `begin` does what the terms after it do, if that is
settled. -/
theorem eval_begin_of_left_lt {ctx ctx' : Context} (grants : ctx.grants = ctx'.grants)
    (room : ctx.left < ctx'.left) (proper : body.elements? = some (first :: terms))
    (named : s.lookup frame .begin = .ok (.builtin (.form .begin)))
    (settled : Settled (EvalM.outcome (ctx.level.evalLast ctx.grants frame first terms) s)) :
    (ctx'.eval frame (.pair address (.symbol .begin) body) : EvalM Value) s =
      (ctx.level.evalLast ctx.grants frame first terms : EvalM Value) s := by
  -- Without a level for the first of the terms, they are not settled.
  have least : 0 < ctx.left := by
    by_contra none
    rw [EvalM.outcome, evalLast_of_none (Nat.eq_zero_of_not_pos none)] at settled
    exact settled ctx.limit rfl
  have enough : ctx'.depth + 1 < ctx'.limit := by
    unfold left at least room
    omega
  have entered : ctx'.enter = .ok { ctx' with depth := ctx'.depth + 1 } :=
    if_neg (Nat.not_le.mpr (Nat.lt_of_succ_lt enough))
  have fewer : ctx.left ≤ ctx'.limit - (ctx'.depth + 1) :=
    Nat.le_of_lt_succ (Nat.lt_of_lt_of_eq room (left_of_enter entered))
  rw [eval_begin entered enough proper named]
  have levels := Simulation.levels_of_le ctx.limit ctx'.limit fewer
  exact Simulation.rel_evalLast levels grants frame first terms s settled

end Context

/-! ## The frame of a call -/

namespace Params

/-- The names that are bound in the frame of a call. -/
def names (params : Params) : List Symbol := params.fixed ++ params.rest.toList

/-- Binds the fixed parameters in order, and the other one to a new list of what is left. -/
def bind (params : Params) (values : List Value) (frame : Scope) : EvalM Unit := do
  (params.fixed.zip values).forM fun (name, value) => EvalM.define frame name value
  match params.rest with
  | some name => do
    let surplus ← EvalM.alloc (Alloc.list (values.drop params.fixed.length))
    EvalM.define frame name surplus
  | none => pure ()

/-- Values that are as many as the parameters take are bound. -/
theorem bindParams_eq_bind {params : Params} {values : List Value}
    (admitted : params.arity.admits values.length = true) (frame : Scope) :
    bindParams params values frame = params.bind values frame := by
  unfold bindParams
  simp only [Arity.check, admitted]
  rfl

end Params

/-- The frame in which the body of a function is evaluated: the arguments are evaluated where it is
called, and their values are bound in a new frame inside its home. -/
def Context.prepare (ctx : Context) (caller : Scope) (params : Params) (home : Scope)
    (args : List Value) : EvalM Scope := do
  let values ← ctx.evalAll caller args
  let frame ← EvalM.enter home
  params.bind values frame
  return frame

namespace EvalM

theorem of_define_eq_ok {scope : Scope} {name : Symbol} {value : Value} {s s' : Store} {u : Unit}
    (ran : define scope name value s = .ok u s') : s.define scope name value = .ok s' := by
  simp only [define, edit] at ran
  split at ran
  · next made =>
    cases ran
    exact made
  · cases ran

theorem length_of_mapM {g : α → EvalM β} {items : List α} {values : List β} {s s' : Store}
    (ran : items.mapM g s = .ok values s') : values.length = items.length := by
  rw [← List.mapM'_eq_mapM] at ran
  induction items generalizing values s with
  | nil =>
    cases ran
    rfl
  | cons item items ih =>
    obtain ⟨value, between, -, ran⟩ := exists_of_bind_eq_ok ran
    obtain ⟨rest, last, ranRest, ended⟩ := exists_of_bind_eq_ok ran
    cases ended
    exact congrArg (· + 1) (ih ranRest)

end EvalM

/-- To call a function is to evaluate its body in the frame of the call. -/
theorem Context.apply_function {ctx : Context} {caller home : Scope} {address : Address}
    {params : Params} {body : Value} {args : List Value}
    (admitted : params.arity.admits args.length = true) :
    (ctx.apply caller (.closure address .function params body home) args : EvalM Value) =
      ctx.prepare caller params home args >>= fun frame => ctx.eval frame body := by
  rw [apply_eq_body]
  funext s
  show ((ctx.evalAll caller args : EvalM _) >>= _) s = _
  unfold prepare
  rw [bind_assoc]
  cases ran : (ctx.evalAll caller args : EvalM _) s with
  | error e s' => rw [EvalM.bind_of_error ran, EvalM.bind_of_error ran]
  | ok values s' =>
    have count : values.length = args.length := EvalM.length_of_mapM ran
    rw [EvalM.bind_of_ok ran, EvalM.bind_of_ok ran]
    simp only [Params.bindParams_eq_bind (count ▸ admitted), bind_assoc, pure_bind]
    rfl

/-- With more levels the frame of a call comes out as with fewer, if that is settled. -/
theorem Context.settledBy_prepare {ctx ctx' : Context} (grants : ctx.grants = ctx'.grants)
    (room : ctx.left ≤ ctx'.left) (caller : Scope) (params : Params) (home : Scope)
    (args : List Value) :
    EvalM.SettledBy (ctx.prepare caller params home args) (ctx'.prepare caller params home args) :=
  have levels := Simulation.levels_of_le ctx.limit ctx'.limit room
  .bind (Simulation.rel_evalAll levels grants caller args) fun _ _ _ => rfl

/-! ## What the frame of a call hides -/

namespace Store

/-- Names are looked up in the frames only. -/
theorem lookup_congr {s s' : Store} {name : Symbol}
    (same : ∀ id, (s'.frame id).find? name = (s.frame id).find? name) (scope : Scope) :
    s'.lookup scope name = s.lookup scope name := by
  simp only [lookup, nearest?, SlotTable.contains, SlotTable.get, same]

/-- A new binding hides no other name. -/
theorem lookup_define_of_ne {s s' : Store} {scope : Scope} {name other : Symbol} {value : Value}
    (apart : other ≠ name) (defined : s.define scope name value = .ok s') (place : Scope) :
    s'.lookup place other = s.lookup place other := by
  obtain ⟨-, rfl⟩ := of_define_eq_ok defined
  refine lookup_congr (fun id => ?_) place
  rw [frame_setFrame]
  split
  · next here => rw [SlotTable.find?_insert_of_ne apart, here.1]
  · rfl

/-- From a new frame all names are seen that are seen around it. -/
theorem lookup_newFrame (s : Store) (home : Scope) (name : Symbol) :
    (s.newFrame home.chain).2.lookup (s.newFrame home.chain).1 name = s.lookup home name := by
  have same (id : FrameId) : ((s.newFrame home.chain).2.frame id).find? name =
      (s.frame id).find? name := by rw [frame_newFrame]
  have empty : s.frame s.frames.size = {} := by simp [frame]
  rw [lookup_congr same]
  simp only [lookup, nearest?, newFrame, Scope.chain, List.find?_cons, empty]
  rfl

end Store

namespace Params

variable {params : Params} {name : Symbol} {values : List Value} {frame : Scope} {s s' : Store}

theorem lookup_forM_define {entries : List (Symbol × Value)}
    (apart : name ∉ entries.map Prod.fst) {u : PUnit}
    (ran : (entries.forM fun entry => EvalM.define frame entry.1 entry.2 : EvalM PUnit) s =
      .ok u s') (place : Scope) : s'.lookup place name = s.lookup place name := by
  induction entries generalizing s with
  | nil =>
    cases ran
    rfl
  | cons entry entries ih =>
    rw [List.map_cons, List.mem_cons, not_or] at apart
    obtain ⟨_, between, first, rest⟩ := EvalM.exists_of_bind_eq_ok ran
    rw [ih apart.2 rest, Store.lookup_define_of_ne apart.1 (EvalM.of_define_eq_ok first)]

/-- Parameters hide no other name. -/
theorem lookup_bind (apart : name ∉ params.names) {u : Unit}
    (ran : params.bind values frame s = .ok u s') (place : Scope) :
    s'.lookup place name = s.lookup place name := by
  rw [names, List.mem_append, not_or] at apart
  obtain ⟨_, between, fixed, rest⟩ := EvalM.exists_of_bind_eq_ok ran
  have within : name ∉ (params.fixed.zip values).map Prod.fst := by
    rw [List.mem_map]
    rintro ⟨⟨_, value⟩, mem, rfl⟩
    exact apart.1 (List.of_mem_zip mem).1
  rw [← lookup_forM_define within fixed]
  cases taken : params.rest with
  | none =>
    rw [taken] at rest
    cases rest
    rfl
  | some other =>
    rw [taken] at rest apart
    obtain ⟨surplus, later, made, bound⟩ := EvalM.exists_of_bind_eq_ok rest
    rw [Store.lookup_define_of_ne (by simpa using apart.2) (EvalM.of_define_eq_ok bound)]
    cases made
    exact Store.lookup_congr (fun _ => rfl) place

end Params

/-- The frame of a call shows what is seen from the home of the closure once the arguments have been
evaluated, except for the names of parameters. -/
theorem Context.lookup_prepare {ctx : Context} {caller home frame : Scope} {params : Params}
    {args : List Value} {s s' : Store} {name : Symbol} (apart : name ∉ params.names)
    (ran : ctx.prepare caller params home args s = .ok frame s') :
    ∃ values between, (ctx.evalAll caller args : EvalM _) s = .ok values between ∧
      s'.lookup frame name = between.lookup home name := by
  obtain ⟨values, between, evaluated, ran⟩ := EvalM.exists_of_bind_eq_ok ran
  obtain ⟨made, entered, enter, ran⟩ := EvalM.exists_of_bind_eq_ok ran
  obtain ⟨u, bound, bind, ended⟩ := EvalM.exists_of_bind_eq_ok ran
  cases ended
  cases enter
  refine ⟨values, between, evaluated, ?_⟩
  exact (Params.lookup_bind apart bind _).trans (between.lookup_newFrame home name)

/-! ## Calls of closures -/

namespace Alloc

/-- A new list has the elements that it is made of. -/
theorem elements?_list (items : List Value) (next : Address) :
    ((list items).run next).1.elements? = some items :=
  Value.elements?_eq_some_iff.mpr (isChain_chain items .nil next)

theorem exists_pair_of_list (first : Value) (items : List Value) (next : Address) :
    ∃ address rest, ((list (first :: items)).run next).1 = .pair address first rest ∧
      rest.elements? = some items := by
  refine ⟨((list items).run next).2, ((list items).run next).1, ?_, elements?_list items next⟩
  unfold list
  rw [chain_cons]
  rfl

end Alloc

/-- The closure that is made of a list of parameters and the terms of a body. -/
theorem exists_closure_of_makeClosure {home : Scope} {kind : ClosureKind} {spec first f : Value}
    {body : List Value} {s s' : Store}
    (made : (makeClosure home kind (spec :: first :: body) : EvalM Value) s = .ok f s') :
    ∃ address at' terms params, Params.ofTerm spec = .ok params ∧
      terms.elements? = some (first :: body) ∧
      f = .closure address kind params (.pair at' (.symbol .begin) terms) home := by
  obtain ⟨params, between, read, made⟩ := EvalM.exists_of_bind_eq_ok made
  obtain ⟨term, later, listed, made⟩ := EvalM.exists_of_bind_eq_ok made
  have read : Params.ofTerm spec = .ok params := by
    cases given : Params.ofTerm spec with
    | ok params' =>
      rw [given] at read
      cases read
      rfl
    | error e =>
      rw [given] at read
      cases read
  obtain ⟨at', terms, proper, rfl⟩ : ∃ at' terms, terms.elements? = some (first :: body) ∧
      term = .pair at' (.symbol .begin) terms := by
    cases listed
    obtain ⟨at', terms, listed, proper⟩ := Alloc.exists_pair_of_list (.symbol .begin)
      (first :: body) between.nextAddress
    exact ⟨at', terms, proper, listed⟩
  cases made
  exact ⟨_, at', terms, params, read, proper, rfl⟩

/-- The closure that a term headed by `lambda` makes: its parameters are those that are written, and
its body is headed by `begin` and has the terms that are written. -/
theorem Context.exists_function_of_lambda {ctx : Context} {home : Scope} {address : Address}
    {rest spec first f : Value} {body : List Value} {s s' : Store}
    (proper : rest.elements? = some (spec :: first :: body))
    (named : s.lookup home .lambda = .ok (.builtin (.form .lambda)))
    (made : (ctx.eval home (.pair address (.symbol .lambda) rest) : EvalM Value) s = .ok f s') :
    ∃ address' at' terms params, Params.ofTerm spec = .ok params ∧
      terms.elements? = some (first :: body) ∧
      f = .closure address' .function params (.pair at' (.symbol .begin) terms) home := by
  rw [eval_eq_body] at made
  simp only [Activation.body] at made
  cases entered : ctx.enter with
  | error e =>
    rw [entered] at made
    cases made
  | ok inner =>
    rw [entered] at made
    rcases Nat.lt_or_ge inner.depth inner.limit with room | full
    · have head : (inner.eval home (.symbol .lambda) : EvalM Value) s =
          .ok (.builtin (.form .lambda)) s := by
        simp only [eval_symbol room, EvalM.lookup, EvalM.ask, named]
      simp only [Activation.evalBody, Value.elements, proper] at made
      have made := EvalM.of_during_eq_ok ((EvalM.bind_of_ok head _).symm.trans made)
      change (inner.apply home (.builtin (.form .lambda)) (spec :: first :: body) : EvalM Value) s =
        _ at made
      rw [apply_eq_body] at made
      exact exists_closure_of_makeClosure made
    · have refused := eval_symbol_of_full full home .lambda s
      cases (EvalM.bind_of_error refused _).symm.trans made

/-- What a call of a closure comes to if the terms of its body are evaluated in order in a frame of
its parameters. -/
def Context.applyTerms (ctx : Context) (caller : Scope) (params : Params) (home : Scope)
    (first : Value) (terms args : List Value) : EvalM Value := do
  let frame ← ctx.prepare caller params home args
  ctx.level.evalLast ctx.grants frame first terms

/-- In the frame of a call the symbol `begin` has its first meaning. -/
def Context.BeginsIn (ctx : Context) (caller : Scope) (params : Params) (home : Scope)
    (args : List Value) (s : Store) : Prop :=
  ∀ frame s', ctx.prepare caller params home args s = .ok frame s' →
    s'.lookup frame .begin = .ok (.builtin (.form .begin))

namespace Context

section Calls

variable {ctx ctx' : Context} {caller home : Scope} {address at' : Address} {params : Params}
  {terms first : Value} {body args : List Value} {s : Store}

/-- A settled call of a closure evaluates the terms of its body in a frame of its parameters. -/
theorem apply_eq_applyTerms (admitted : params.arity.admits args.length = true)
    (proper : terms.elements? = some (first :: body))
    (begins : ctx.BeginsIn caller params home args s)
    (settled : Settled (EvalM.outcome (ctx.apply caller
      (.closure address .function params (.pair at' (.symbol .begin) terms) home) args) s)) :
    (ctx.apply caller (.closure address .function params (.pair at' (.symbol .begin) terms) home)
        args : EvalM Value) s =
      ctx.applyTerms caller params home first body args s := by
  rw [apply_function admitted] at settled ⊢
  unfold applyTerms
  cases prepared : ctx.prepare caller params home args s with
  | error e s' => rw [EvalM.bind_of_error prepared, EvalM.bind_of_error prepared]
  | ok frame s' =>
    rw [EvalM.outcome, EvalM.bind_of_ok prepared] at settled
    rw [EvalM.bind_of_ok prepared, EvalM.bind_of_ok prepared]
    exact ctx.eval_begin_of_settled proper (begins frame s' prepared) settled

/-- With a level more, a call does what the terms of the body do in a frame of the parameters, if
that is settled. -/
theorem apply_eq_applyTerms_of_left_lt (grants : ctx.grants = ctx'.grants)
    (room : ctx.left < ctx'.left) (admitted : params.arity.admits args.length = true)
    (proper : terms.elements? = some (first :: body))
    (begins : ctx.BeginsIn caller params home args s)
    (settled : Settled (EvalM.outcome (ctx.applyTerms caller params home first body args) s)) :
    (ctx'.apply caller (.closure address .function params (.pair at' (.symbol .begin) terms) home)
        args : EvalM Value) s =
      ctx.applyTerms caller params home first body args s := by
  rw [apply_function admitted]
  have same := settledBy_prepare grants (Nat.le_of_lt room) caller params home args s
  unfold applyTerms at settled ⊢
  unfold EvalM.outcome at same settled
  cases prepared : ctx.prepare caller params home args s with
  | error e s' =>
    rw [prepared] at same
    rw [EvalM.bind_of_error prepared] at settled ⊢
    exact EvalM.bind_of_error (same (settled_error.mpr (settled_error.mp settled))) _
  | ok frame s' =>
    rw [prepared] at same
    rw [EvalM.bind_of_ok prepared] at settled ⊢
    rw [EvalM.bind_of_ok (same (settled_ok frame))]
    exact eval_begin_of_left_lt grants room proper (begins frame s' prepared) settled

/-- The symbol `begin` has its first meaning in the frame of a call if no parameter has its name and
it has this meaning where the closure has been made. -/
theorem beginsIn_of_not_mem (apart : Symbol.begin ∉ params.names)
    (home_begins : ∀ values s', (ctx.evalAll caller args : EvalM _) s = .ok values s' →
      s'.lookup home .begin = .ok (.builtin (.form .begin))) :
    ctx.BeginsIn caller params home args s := by
  intro frame s' prepared
  obtain ⟨values, between, evaluated, same⟩ := lookup_prepare apart prepared
  rw [same]
  exact home_begins values between evaluated

end Calls

end Context

/-- **To call a closure is to evaluate its terms in a frame of its parameters.**  A term
`(lambda params b1 ... bn)` that makes a closure has parameters that can be read, and with as many
arguments as they take it is called as follows, if the symbol `begin` has its first meaning in the
frame of the call.  Unless the limit is reached, the call ends with the same value or error, in the
same store and with the same output as the evaluation of the arguments from left to right, a new
frame inside the one where the closure was made, the bindings of the parameters, and the evaluation
of `b1 ... bn` in order.  Conversely, a call with a level more does what these come to, unless they
reach the limit.  The condition holds if no parameter is called `begin` and this symbol has its
first meaning where the closure was made, whatever the other parameters and all other names are. -/
theorem Context.apply_lambda {made : Context} {home : Scope} {address : Address}
    {rest spec first f : Value} {body : List Value} {s₀ s₁ : Store}
    (proper : rest.elements? = some (spec :: first :: body))
    (named : s₀.lookup home .lambda = .ok (.builtin (.form .lambda)))
    (evaluated : (made.eval home (.pair address (.symbol .lambda) rest) : EvalM Value) s₀ =
      .ok f s₁) :
    ∃ params, Params.ofTerm spec = .ok params ∧
      ∀ (ctx : Context) (caller : Scope) (args : List Value) (s : Store),
        params.arity.admits args.length = true →
        (ctx.BeginsIn caller params home args s →
          (Settled (EvalM.outcome (ctx.apply caller f args) s) →
            (ctx.apply caller f args : EvalM Value) s =
              ctx.applyTerms caller params home first body args s) ∧
          ∀ ctx' : Context, ctx.grants = ctx'.grants → ctx.left < ctx'.left →
            Settled (EvalM.outcome (ctx.applyTerms caller params home first body args) s) →
              (ctx'.apply caller f args : EvalM Value) s =
                ctx.applyTerms caller params home first body args s) ∧
        (Symbol.begin ∉ params.names →
          (∀ values s', (ctx.evalAll caller args : EvalM _) s = .ok values s' →
            s'.lookup home .begin = .ok (.builtin (.form .begin))) →
          ctx.BeginsIn caller params home args s) := by
  obtain ⟨_, _, terms, params, read, closed, rfl⟩ :=
    exists_function_of_lambda proper named evaluated
  refine ⟨params, read, fun ctx caller args s admitted => ⟨fun begins => ⟨?_, ?_⟩, ?_⟩⟩
  · exact apply_eq_applyTerms admitted closed begins
  · intro ctx' grants room settled
    exact apply_eq_applyTerms_of_left_lt grants room admitted closed begins settled
  · exact beginsIn_of_not_mem

/-- The terms `(set! lambda 5)` and `(car if)`. -/
def setAndTake : Value × Value :=
  (.applied (.symbol (.global "set!")) [.symbol .lambda, .integer 5],
    .applied (.symbol (.global "car")) [.symbol (.global "if")])

/-- The term `(lambda (lambda . if) (set! lambda 5) (car if))`, whose parameters have the names of
forms. -/
def formNames : Value :=
  .applied (.symbol .lambda) [.pair 0 (.symbol .lambda) (.symbol (.global "if")), setAndTake.1,
    setAndTake.2]

/-- The parameters of `formNames`. -/
def formNamesParams : Params := ⟨[.lambda], some (.global "if")⟩

/-- The closure that `formNames` makes. -/
def formNamesClosure : Value :=
  .closure 3 .function formNamesParams
    (.pair 2 (.symbol .begin) (.pair 1 setAndTake.1 (.pair 0 setAndTake.2 .nil))) globalScope

/-- The terms `1`, `2` and `3`. -/
def threeArgs : List Value := [.integer 1, .integer 2, .integer 3]

theorem apply_lambda_formNames :
    (∃ s, (Context.eval {} globalScope formNames : EvalM Value) .initial =
      .ok formNamesClosure s) ∧
    EvalM.outcome (Context.apply {} globalScope formNamesClosure threeArgs) .initial =
      .ok (.integer 2) ∧
    (Context.apply {} globalScope formNamesClosure threeArgs : EvalM Value) .initial =
      Context.applyTerms {} globalScope formNamesParams globalScope setAndTake.1 [setAndTake.2]
        threeArgs .initial ∧
    (Context.apply { limit := 5 } globalScope formNamesClosure threeArgs : EvalM Value) .initial =
      Context.applyTerms { limit := 4 } globalScope formNamesParams globalScope setAndTake.1
        [setAndTake.2] threeArgs .initial := by
  have evaluated := EvalM.eq_ok_of_outcome (s := .initial) (a := formNamesClosure)
    (x := Context.eval {} globalScope formNames) (by decide +kernel)
  have called : EvalM.outcome (Context.apply {} globalScope formNamesClosure threeArgs) .initial =
      .ok (.integer 2) := by decide +kernel
  have ended : EvalM.outcome (Context.applyTerms { limit := 4 } globalScope formNamesParams
      globalScope setAndTake.1 [setAndTake.2] threeArgs) .initial = .ok (.integer 2) := by
    decide +kernel
  have meaning :
      Store.initial.lookup globalScope .begin = .ok (.builtin (.form .begin)) := by decide +kernel
  let spec : Value := .pair 0 (.symbol .lambda) (.symbol (.global "if"))
  have proper : Value.elements? ([spec, setAndTake.1, setAndTake.2].foldr (.pair 0) .nil) =
      some (spec :: setAndTake.1 :: [setAndTake.2]) := rfl
  have shape : Params.ofTerm spec = .ok formNamesParams := by decide +kernel
  obtain ⟨params, read, calls⟩ := Context.apply_lambda proper (by decide +kernel) evaluated
  obtain rfl : formNamesParams = params := Except.ok.inj (shape.symm.trans read)
  obtain ⟨direct, begins⟩ := calls {} globalScope threeArgs .initial rfl
  obtain ⟨converse, begins'⟩ := calls { limit := 4 } globalScope threeArgs .initial rfl
  have apart : Symbol.begin ∉ formNamesParams.names := by decide +kernel
  refine ⟨⟨_, evaluated⟩, called, ?_, ?_⟩
  · refine (direct (begins apart fun values s' ran => ?_)).1 (by simp only [called, settled_ok])
    cases ran
    exact meaning
  · refine (converse (begins' apart fun values s' ran => ?_)).2 { limit := 5 } rfl (by decide)
      (by simp only [ended, settled_ok])
    cases ran
    exact meaning

/-- The term `(lambda (begin) begin)`, in whose calls `begin` has another meaning. -/
def beginIdentity : Value :=
  .applied (.symbol .lambda) [.applied (.symbol .begin) [], .symbol .begin]

/-- A call of the identity whose parameter is called `begin` tries to call its argument. -/
theorem apply_beginIdentity :
    ∃ f s, (Context.eval {} globalScope beginIdentity : EvalM Value) .initial = .ok f s ∧
      Params.ofTerm (.applied (.symbol .begin) []) = .ok ⟨[.begin], none⟩ ∧
      EvalM.outcome (Context.apply {} globalScope f [.integer 1]) s =
        .error (.notCallable (.value "1" .integer)) ∧
      EvalM.outcome (Context.applyTerms {} globalScope ⟨[.begin], none⟩ globalScope
        (.symbol .begin) [] [.integer 1]) s = .ok (.integer 1) :=
  ⟨.closure 2 .function ⟨[.begin], none⟩
      (.pair 1 (.symbol .begin) (.pair 0 (.symbol .begin) .nil)) globalScope,
    _, EvalM.eq_ok_of_outcome (by decide +kernel), by decide +kernel, by decide +kernel,
    by decide +kernel⟩

end GuardedLisp
