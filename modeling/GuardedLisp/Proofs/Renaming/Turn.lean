import GuardedLisp.Proofs.Renaming.Eval
import GuardedLisp.Session

/-!
# Forms in turn

Forms are evaluated one after another, and something is made of the outcome of each before the next
one has its turn: a session takes out what has been printed and shows both.  None of it depends on
what addresses are called or how symbols are numbered, if what is made of an outcome does not.

## Main definitions

* `EvalM.attempt`: what a computation comes to, as a value
* `Turn`: what is made of the outcome of a form
* `Turn.told`: the outcome with what has been printed
* `Interpreter.turns`: forms have their turns

## Main results

* `Session.evalForms_eq`: a session shows what is told of the forms in turn
* `Interpreter.turns_rename`: turns do not depend on what addresses are called, nor on how symbols
  are numbered
* `Interpreter.below_turns`: turns from known addresses end with known addresses
-/

namespace GuardedLisp

open EvalM

/-! ## Outcomes -/

/-- What a computation comes to, be it a value or an error. -/
def EvalM.attempt (x : EvalM α) : EvalM (Except Error α) := fun s =>
  match x s with
  | .ok a s => .ok (.ok a) s
  | .error e s => .ok (.error e) s

theorem EvalM.after_attempt (x : EvalM α) (s : Store) : (attempt x).after s = x.after s := by
  unfold after attempt
  cases x s <;> rfl

theorem EvalM.mirrors_attempt {f : Renaming} {r : α → β} {x : EvalM α} {y : EvalM β}
    (mirrors : Mirrors f r x y) : Mirrors f (Except.map r) (attempt x) (attempt y) where
  grows s := (after_attempt x s).symm ▸ mirrors.grows s
  follows s next fresh := by
    have same : (attempt x).taken s = x.taken s := by simp only [taken, after_attempt]
    rw [same] at fresh ⊢
    simp only [attempt, mirrors.follows s next fresh]
    cases x s <;> rfl

/-- An outcome with its addresses and symbols renamed. -/
abbrev renameOutcome (f : Renaming) : Except Error Value → Except Error Value :=
  Except.map (Value.rename f)

/-! ## Turns -/

/-- What is made of the outcome of a form before the next form has its turn. -/
structure Turn (β : Type) where
  /-- What is made, and the store after it. -/
  settle : Except Error Value → Store → β × Store
  /-- What is made, with its addresses and symbols renamed. -/
  rename : Renaming → β → β
  nextAddress_settle (outcome : Except Error Value) (s : Store) :
    (settle outcome s).2.nextAddress = s.nextAddress
  settle_rename (f : Renaming) (outcome : Except Error Value) (s : Store)
    (next : Address) :
    settle (renameOutcome f outcome) (s.rename f next) =
      (rename f (settle outcome s).1, (settle outcome s).2.rename f next)
  /-- If what is made holds no address from a bound on, then it does not matter where these are
  renamed to. -/
  rename_congr {f g : Address → Address} {bound : Address} {b : β} :
    rename (skipping bound) b = b → (∀ a < bound, f a = g a) → rename f b = rename g b

namespace Turn

/-- The outcome is kept with what has been printed, which is taken out. -/
def told : Turn (String × Except Error Value) where
  settle outcome s := ((s.output, outcome), { s with output := "" })
  rename f := Prod.map id (renameOutcome f)
  nextAddress_settle _ _ := rfl
  settle_rename _ _ _ _ := rfl
  rename_congr {f g bound entry} known same := by
    obtain ⟨printed, outcome⟩ := entry
    cases outcome with
    | ok v =>
      have below := Value.below_of_rename_skipping (Except.ok.inj (congrArg Prod.snd known))
      exact congrArg (fun v => (printed, Except.ok v)) (Value.moving_congr same below)
    | error e => rfl

variable {β : Type} (turn : Turn β)

/-- A form has its turn. -/
def take (ctx : Context) (form : Value) : EvalM β := do
  let outcome ← attempt (ctx.eval globalScope form)
  fun s => .ok (turn.settle outcome s).1 (turn.settle outcome s).2

theorem mirrors_take {f : Renaming} (injective : Function.Injective f.address) (ctx : Context)
    (form : Value) :
    Mirrors f (turn.rename f) (turn.take ctx form) (turn.take ctx (form.rename f)) := by
  refine mirrors_bind (mirrors_attempt (ctx.mirrors_eval injective globalScope form)) ?_
  intro outcome
  refine mirrors_of_keeps (fun s => turn.nextAddress_settle outcome s) fun s next => ?_
  rw [turn.settle_rename]
  rfl

/-- Forms have their turns. -/
def takeAll (ctx : Context) (forms : List Value) : EvalM (List β) := forms.mapM (turn.take ctx)

theorem mirrors_takeAll {f : Renaming} (injective : Function.Injective f.address)
    (ctx : Context) (forms : List Value) :
    Mirrors f (List.map (turn.rename f)) (turn.takeAll ctx forms)
      (turn.takeAll ctx (forms.map (Value.rename f))) :=
  mirrors_mapM (turn.mirrors_take injective ctx) forms

theorem takeAll_cons (ctx : Context) (form : Value) (forms : List Value) :
    turn.takeAll ctx (form :: forms) = do
      let b ← turn.take ctx form
      let bs ← turn.takeAll ctx forms
      return b :: bs := by
  simp only [takeAll, List.mapM_cons]

end Turn

namespace Interpreter

variable {β : Type} (turn : Turn β)

/-- What is made of the outcomes of forms, one after another. -/
def turns (i : Interpreter) : List Value → List β × Interpreter
  | [] => ([], i)
  | form :: forms =>
    let made := turn.settle (i.eval form).1 (i.eval form).2.store
    let later := turns { i with store := made.2 } forms
    (made.1 :: later.1, later.2)

/-- Evaluation of a form changes the store and nothing else. -/
theorem eval_with (i : Interpreter) (form : Value) (store : Store) :
    ({ (i.eval form).2 with store } : Interpreter) = { i with store } := by
  simp only [eval, perform]
  cases (i.context.eval globalScope form : EvalM Value) i.store <;> rfl

/-- What it comes to when forms have their turns. -/
theorem takeAll_eq (i : Interpreter) (forms : List Value) :
    turn.takeAll i.context forms i.store =
        .ok (i.turns turn forms).1 (i.turns turn forms).2.store ∧
      (i.turns turn forms).2 = { i with store := (i.turns turn forms).2.store } := by
  induction forms generalizing i with
  | nil => exact ⟨rfl, rfl⟩
  | cons form forms ih =>
    have begun : turn.take i.context form i.store =
        .ok (turn.settle (i.eval form).1 (i.eval form).2.store).1
          (turn.settle (i.eval form).1 (i.eval form).2.store).2 := by
      simp only [Turn.take, attempt, eval, perform, bind, EStateM.bind]
      cases (i.context.eval globalScope form : EvalM Value) i.store <;> rfl
    obtain ⟨ran, left⟩ := ih { i with store := _ }
    refine ⟨?_, left⟩
    rw [Turn.takeAll_cons, bind_of_ok begun]
    exact bind_of_ok ran _

theorem length_turns (i : Interpreter) (forms : List Value) :
    (i.turns turn forms).1.length = forms.length := by
  induction forms generalizing i with
  | nil => rfl
  | cons form forms ih => simp only [turns, List.length_cons, ih]

theorem turns_take (i : Interpreter) (forms : List Value) (k : Nat) :
    (i.turns turn (forms.take k)).1 = (i.turns turn forms).1.take k := by
  induction k generalizing i forms with
  | zero => rfl
  | succ k ih =>
    cases forms with
    | nil => rfl
    | cons form forms => simp only [List.take_succ_cons, turns, ih]

theorem turns_append (i : Interpreter) (forms more : List Value) :
    i.turns turn (forms ++ more) =
      ((i.turns turn forms).1 ++ ((i.turns turn forms).2.turns turn more).1,
        ((i.turns turn forms).2.turns turn more).2) := by
  induction forms generalizing i with
  | nil => rfl
  | cons form forms ih => simp only [List.cons_append, turns, ih]

theorem limit_turns (i : Interpreter) (forms : List Value) :
    (i.turns turn forms).2.limit = i.limit := by
  rw [(i.takeAll_eq turn forms).2]

theorem symbols_turns (i : Interpreter) (forms : List Value) :
    (i.turns turn forms).2.symbols = i.symbols := by
  rw [(i.takeAll_eq turn forms).2]

/-- Symbols are not looked at when forms have their turns. -/
theorem turns_congr {i j : Interpreter} (limit : j.limit = i.limit) (store : j.store = i.store)
    (forms : List Value) :
    (j.turns turn forms).1 = (i.turns turn forms).1 ∧
      (j.turns turn forms).2.store = (i.turns turn forms).2.store := by
  have context : j.context = i.context := congrArg (fun limit => Context.mk limit 0 []) limit
  have ran := (j.takeAll_eq turn forms).1
  rw [context, store, (i.takeAll_eq turn forms).1, EStateM.Result.ok.injEq] at ran
  exact ⟨ran.1.symm, ran.2.symm⟩

/-! ## Turns with renamed addresses -/

/-- How many addresses are taken when forms have their turns. -/
def taken (i : Interpreter) (forms : List Value) : Nat :=
  (i.turns turn forms).2.store.nextAddress - i.store.nextAddress

theorem taken_eq (i : Interpreter) (forms : List Value) :
    (turn.takeAll i.context forms).taken i.store = i.taken turn forms := by
  simp only [EvalM.taken, EvalM.after, (i.takeAll_eq turn forms).1, taken]

theorem nextAddress_turns (i : Interpreter) (forms : List Value) :
    (i.turns turn forms).2.store.nextAddress = i.store.nextAddress + i.taken turn forms := by
  have grows := (turn.mirrors_takeAll (f := .nothing) Function.injective_id i.context forms).grows
    i.store
  simp only [EvalM.after, (i.takeAll_eq turn forms).1] at grows
  exact (Nat.add_sub_of_le grows).symm

/-- An interpreter with its store renamed. -/
def rename (f : Renaming) (next : Address) (i : Interpreter) : Interpreter :=
  { i with store := i.store.rename f next }

theorem eq_rename {f : Renaming} {next : Address} {i j : Interpreter}
    (symbols : j.symbols = i.symbols) (store : j.store = i.store.rename f next)
    (limit : j.limit = i.limit) : j = i.rename f next := by
  obtain ⟨_, _, _⟩ := j
  exact (Interpreter.mk.injEq ..).mpr ⟨symbols, store, limit⟩

/-- **Turns do not depend on what addresses are called, nor on how symbols are numbered**, if fresh
addresses are taken from `next` on where they have been renamed. -/
theorem turns_rename {f : Renaming} (injective : Function.Injective f.address)
    (i : Interpreter) (forms : List Value) (next : Address)
    (fresh : ∀ k < i.taken turn forms, f.address (i.store.nextAddress + k) = next + k) :
    (i.rename f next).turns turn (forms.map (Value.rename f)) =
      ((i.turns turn forms).1.map (turn.rename f),
        (i.turns turn forms).2.rename f (next + i.taken turn forms)) := by
  have mirrored := (turn.mirrors_takeAll injective i.context forms).follows i.store next
    (by rwa [taken_eq])
  obtain ⟨ran, left⟩ := i.takeAll_eq turn forms
  obtain ⟨ran', left'⟩ := (i.rename f next).takeAll_eq turn (forms.map (Value.rename f))
  rw [taken_eq, ran] at mirrored
  have same := ran'.symm.trans mirrored
  simp only [renameResult, EStateM.Result.ok.injEq] at same
  refine Prod.ext same.1 ?_
  rw [left', left, same.2]
  rfl

/-- Turns from known addresses end with known addresses. -/
theorem below_turns (i : Interpreter) (forms : List Value)
    (below : i.store.Below i.store.nextAddress)
    (known : ∀ form ∈ forms, form.Below i.store.nextAddress) :
    (i.turns turn forms).2.store.Below (i.turns turn forms).2.store.nextAddress ∧
      ∀ b ∈ (i.turns turn forms).1,
        turn.rename (skipping (i.turns turn forms).2.store.nextAddress) b = b := by
  set last := (i.turns turn forms).2.store.nextAddress with last_eq
  have grown : last = i.store.nextAddress + i.taken turn forms := i.nextAddress_turns turn forms
  -- The renaming that moves no address but those that are unused at the end.
  have fixed : ∀ a < i.store.nextAddress, skipping last a = a := fun a small =>
    skipping_of_lt (Nat.lt_of_lt_of_le small (grown ▸ Nat.le_add_right ..))
  have same := i.turns_rename turn (f := skipping last) (injective_skipping last) forms
    i.store.nextAddress fun k small => skipping_of_lt (grown ▸ Nat.add_lt_add_left small _)
  have start : i.rename (skipping last) i.store.nextAddress = i := by
    rw [rename, Store.moving_eq_self fixed below]
  have terms : forms.map (Value.rename (skipping last)) = forms :=
    (List.map_congr_left fun form mem => Value.moving_eq_self fixed (known form mem)).trans
      (List.map_id forms)
  -- The run is its own renaming, so nothing in what it ends with moves.
  rw [start, terms, ← grown] at same
  constructor
  · have stores : (i.turns turn forms).2.store = _ := congrArg (fun ran => ran.2.store) same
    exact Store.below_of_rename_skipping stores.symm
  · intro b mem
    have made : (i.turns turn forms).1.map id = (i.turns turn forms).1.map _ :=
      (List.map_id _).trans (congrArg Prod.fst same)
    exact (List.map_inj_left.mp made b mem).symm

end Interpreter

namespace Session

/-- How a session shows what a form has printed and its outcome. -/
def replyText (told : String × Except Error Value) : String :=
  told.1 ++ unlines [outcomeText told.2]

/-- A session shows what is told of the forms in turn. -/
theorem evalForms_eq (i : Interpreter) (forms : List Value) :
    evalForms i forms =
      (String.join ((i.turns .told forms).1.map replyText), (i.turns .told forms).2) := by
  induction forms generalizing i with
  | nil => rfl
  | cons form forms ih =>
    have same := Interpreter.eval_with i form { (i.eval form).2.store with output := "" }
    simp only [evalForms, Interpreter.takeOutput, ih, Interpreter.turns, Turn.told, List.map_cons,
      String.join_cons, replyText, ← same]

end Session

end GuardedLisp
