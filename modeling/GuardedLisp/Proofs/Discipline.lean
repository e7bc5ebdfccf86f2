import GuardedLisp.Eval.Basic
import GuardedLisp.Proofs.Chain

/-!
# Disciplines

A `Simulation` relates computations whatever they are given, and nothing is known there about the
values in between.  A `Discipline` follows the values.  It says which values may be met, and what
it is for a computation to keep to it if it is given such values.  Worlds stand for what there is at
a time, since more values may be met later on.

Evaluation takes values apart and puts them together.  Of the values that are neither pairs nor
closures it makes only `nil`, truth values, integers, two symbols, and classes when it makes them;
all others come out of the term or out of the store.  So a discipline has to allow for little, and
`Discipline.level_evalAt` says that evaluation keeps to it.  It is the only induction over the
evaluator in which values are followed.

An error is raised with no application named.  Where the wording of a type error shows a value or a
name, it has been met.

## Main definitions

* `Action.operands`, `Action.inputs`, `Action.yields`: the values that a step is given and gives
* `Error.Fresh`: errors as they are raised
* `Discipline`: values that may be met, and computations that keep to them

## Main results

* `Discipline.keeps_apply`, `Discipline.keeps_evalTerm`, `Discipline.keeps_expandChain`: what one
  level makes of levels that keep to a discipline
* `Discipline.level_evalAt`: evaluation and expansion keep to a discipline at every level
-/

namespace GuardedLisp

open Machine (act fail ofExcept bindParams during calling)

/-! ## What steps are given and give -/

/-- The values that a step is given. -/
def Action.operands : Action α → List Value
  | .define _ _ value | .assign _ _ value => [value]
  | .newClass parents => parents.map .classObject
  | .readSlot id _ _ | .defineSlot id _ _ | .chmodSlot id _ _ | .finalise id => [.classObject id]
  | .writeSlot id _ value _ => [.classObject id, value]
  | .pair first rest => [first, rest]
  | .list items => items
  | .closure _ _ body _ => [body]
  | .lookup _ _ | .enter _ | .print _ => []

/-- The values that a step is given, and the name that another value is given to, since the wording
of a refusal may show it. -/
def Action.inputs : Action α → List Value
  | .assign _ name value => [.symbol name, value]
  | .writeSlot id name value _ => [.classObject id, .symbol name, value]
  | action => action.operands

/-- The values in what a step gives. -/
def Action.yields : Action α → α → List Value
  | .lookup _ _, v | .readSlot _ _ _, v | .pair _ _, v | .list _, v | .closure _ _ _ _, v => [v]
  | .newClass _, id => [.classObject id]
  | _, _ => []

theorem Action.mem_inputs_of_mem_operands {action : Action α} {v : Value}
    (mem : v ∈ action.operands) : v ∈ action.inputs := by
  cases action with
  | assign | writeSlot =>
    simp only [operands, inputs, List.mem_cons] at mem ⊢
    grind
  | _ => exact mem

/-- What the parts of a pair have that has it, the elements of a list have too. -/
theorem Value.elements_all {p : Value → Prop}
    (parts : ∀ {address first rest}, p (.pair address first rest) → p first ∧ p rest) {v : Value}
    {items : List Value} (has : p v) (list : v.elements = .ok items) : ∀ item ∈ items, p item :=
  (elements_eq_ok_iff.mp list).forall_mem parts has

/-! ## Errors as they are raised -/

namespace Error

/-- An error as it is raised, when the values that may be met are given: a type error or an overflow
names no application yet, and what is shown in a type error has been met. -/
def Fresh (met : Value → Prop) : Error → Prop
  | type (.classRequired shown _) none => ∃ v, met v ∧ shown = v.text
  | type (.declared slot _ _) none => ∃ name, met (.symbol name) ∧ slot = name.name
  | type _ (some _) | overflow _ (some _) => False
  | _ => True

/-- A check that fails only with errors as they are raised. -/
def RaisedBy (met : Value → Prop) (result : Except Error α) : Prop :=
  ∀ e, result = .error e → e.Fresh met

variable {met : Value → Prop}

theorem raisedBy_ok (a : α) : RaisedBy met (.ok a) := by
  rintro _ ⟨⟩

theorem raisedBy_error {e : Error} (fresh : e.Fresh met) :
    RaisedBy met (.error e : Except Error α) := by
  rintro _ ⟨⟩
  exact fresh

theorem raisedBy_bind {first : Except Error α} {rest : α → Except Error β}
    (fresh : RaisedBy met first) (later : ∀ a, RaisedBy met (rest a)) :
    RaisedBy met (first >>= rest) := by
  intro e refused
  cases first with
  | ok a => exact later a e refused
  | error e' =>
    cases refused
    exact fresh e rfl

theorem raisedBy_mapM {f : α → Except Error β} (fresh : ∀ a, RaisedBy met (f a))
    (items : List α) : RaisedBy met (items.mapM f) := by
  induction items with
  | nil => exact raisedBy_ok []
  | cons item items ih =>
    rw [List.mapM_cons]
    exact raisedBy_bind (fresh item) fun _ => raisedBy_bind ih fun _ => raisedBy_ok _

end Error

section Checks

open Error (RaisedBy)

variable {met : Value → Prop}

/-- A term that is no parameter list is refused for its shape. -/
theorem Params.exists_fault_of_ofTerm {term : Value} {e : Error}
    (refused : ofTerm term = .error e) : ∃ fault, e = .form fault := by
  unfold ofTerm at refused
  generalize [] = fixed at refused
  fun_induction ofTermAfter fixed term with
  | case1 | case3 => cases refused
  | case2 | case4 | case6 | case7 => exact ⟨_, (Except.error.inj refused).symm⟩
  | case5 _ _ _ _ _ ih => exact ih refused

theorem Params.raisedBy_ofTerm (term : Value) : RaisedBy met (ofTerm term) := by
  intro e refused
  obtain ⟨fault, rfl⟩ := exists_fault_of_ofTerm refused
  trivial

theorem Value.raisedBy_elements (v : Value) : RaisedBy met v.elements := by
  unfold elements
  split
  · exact Error.raisedBy_ok _
  · exact Error.raisedBy_error trivial

theorem Value.raisedBy_toInteger (v : Value) : RaisedBy met v.toInteger := by
  unfold toInteger
  split
  · exact Error.raisedBy_ok _
  · exact Error.raisedBy_error trivial

theorem PairPart.raisedBy_of (part : PairPart) (v : Value) : RaisedBy met (part.of v) := by
  unfold PairPart.of
  split
  · exact Error.raisedBy_ok _
  · exact Error.raisedBy_error trivial

theorem Arithmetic.raisedBy_run (operation : Arithmetic) (a b : Int64) :
    RaisedBy met (operation.run a b) := by
  unfold run
  split
  · exact Error.raisedBy_ok _
  · exact Error.raisedBy_error trivial

theorem Arity.raisedBy_check (arity : Arity) (got : Nat) : RaisedBy met (arity.check got) := by
  unfold check
  split
  · exact Error.raisedBy_ok _
  · exact Error.raisedBy_error trivial

theorem LiteralRole.of_read_eq_ok {role : LiteralRole} {term : Value} {name : Symbol}
    (named : role.read term = .ok name) : term = .symbol name := by
  unfold read Value.symbol? at named
  cases term <;> cases named
  rfl

theorem LiteralRole.raisedBy_read (role : LiteralRole) (term : Value) :
    RaisedBy met (role.read term) := by
  unfold read
  split
  · exact Error.raisedBy_ok _
  · exact Error.raisedBy_error trivial

theorem Datatype.raisedBy_ofTerm (term : Value) : RaisedBy met (Datatype.ofTerm term) := by
  refine Error.raisedBy_bind (LiteralRole.raisedBy_read _ term) fun name => ?_
  unfold ofName
  split
  · exact Error.raisedBy_ok _
  · exact Error.raisedBy_error trivial

theorem PermissionFlag.raisedBy_ofTerm (term : Value) :
    RaisedBy met (PermissionFlag.ofTerm term) := by
  refine Error.raisedBy_bind (LiteralRole.raisedBy_read _ term) fun name => ?_
  unfold ofText
  split
  · exact Error.raisedBy_ok _
  · exact Error.raisedBy_error trivial

end Checks

/-! ## Disciplines -/

/-- Which values may be met in a world, and which computations of a machine keep to that. -/
structure Discipline (m : Type → Type) [Machine m] where
  /-- What there is at a time. -/
  World : Type
  /-- A world may come after another one. -/
  Later : World → World → Prop
  /-- A value may be met in a world. -/
  Covers : World → Value → Prop
  /-- Started in a world or later, a computation keeps to the discipline, and what it gives has a
  property in the world at its end. -/
  Keeps {α : Type} : World → m α → (World → α → Prop) → Prop
  later_trans {u v w : World} : Later u v → Later v w → Later u w
  covers_later {w w' : World} {v : Value} : Later w w' → Covers w v → Covers w' v
  covers_pair {w : World} {address : Address} {first rest : Value} :
    Covers w (.pair address first rest) → Covers w first ∧ Covers w rest
  covers_body {w : World} {address : Address} {kind : ClosureKind} {params : Params} {body : Value}
    {home : Scope} : Covers w (.closure address kind params body home) → Covers w body
  covers_nil (w : World) : Covers w .nil
  covers_bool (w : World) (b : Bool) : Covers w (.bool b)
  covers_integer (w : World) (n : Int64) : Covers w (.integer n)
  covers_begin (w : World) : Covers w (.symbol .begin)
  covers_lambda (w : World) : Covers w (.symbol .lambda)
  keeps_pure {α : Type} {w : World} {a : α} {good : World → α → Prop} :
    (∀ w', Later w w' → good w' a) → Keeps w (pure a) good
  keeps_fail {α : Type} {w : World} {e : Error} {good : World → α → Prop} :
    e.Fresh (Covers w) → Keeps w (fail e : m α) good
  keeps_bind {α β : Type} {w : World} {x : m α} {f : α → m β} {good : World → α → Prop}
    {fair : World → β → Prop} :
    Keeps w x good → (∀ w' a, Later w w' → good w' a → Keeps w' (f a) fair) →
      Keeps w (x >>= f) fair
  keeps_calling {α : Type} {w : World} {call : Call} {x : m α} {good : World → α → Prop} :
    Keeps w x good → Keeps w (calling call x) good
  keeps_act {α : Type} {w : World} {action : Action α} :
    (∀ v ∈ action.inputs, Covers w v) →
      Keeps w (act action) fun w' a => ∀ v ∈ action.yields a, Covers w' v
  keeps_weaken {α : Type} {w : World} {x : m α} {good fair : World → α → Prop} :
    Keeps w x good → (∀ w' a, good w' a → fair w' a) → Keeps w x fair
  keeps_later {α : Type} {w w' : World} {x : m α} {good : World → α → Prop} :
    Later w w' → Keeps w x good → Keeps w' x good

namespace Discipline

variable {m : Type → Type} [Machine m] {D : Discipline m} {w w' : D.World}

variable (D) in
/-- A discipline that naming an application does not break. -/
def Names : Prop :=
  ∀ {α : Type} {w : D.World} {address : Address} {first rest : Value} {x : m α}
    {good : D.World → α → Prop}, D.Covers w (.pair address first rest) → D.Keeps w x good →
      D.Keeps w (during (.pair address first rest) x) good

/-! ## Steps put together -/

theorem covers_elements {v : Value} {items : List Value} (covered : D.Covers w v)
    (list : v.elements = .ok items) : ∀ item ∈ items, D.Covers w item :=
  Value.elements_all D.covers_pair covered list

theorem covers_part {v u : Value} (covered : D.Covers w v) {which : PairPart}
    (has : which.of v = .ok u) : D.Covers w u := by
  cases v with
  | pair address first rest =>
    obtain rfl := Except.ok.inj has
    cases which with
    | first => exact (D.covers_pair covered).1
    | rest => exact (D.covers_pair covered).2
  | _ => cases has

theorem covers_all_later {vs : List Value} (later : D.Later w w')
    (covered : ∀ v ∈ vs, D.Covers w v) : ∀ v ∈ vs, D.Covers w' v :=
  fun v mem => D.covers_later later (covered v mem)

theorem keeps_ofExcept {result : Except Error α} {good : D.World → α → Prop}
    (raised : Error.RaisedBy (D.Covers w) result)
    (has : ∀ a, result = .ok a → ∀ w', D.Later w w' → good w' a) :
    D.Keeps w (ofExcept result) good := by
  cases result with
  | ok a => exact D.keeps_pure (has a rfl)
  | error e => exact D.keeps_fail (raised e rfl)

/-- A check, of whose result nothing is asked. -/
theorem keeps_check {result : Except Error α} (raised : Error.RaisedBy (D.Covers w) result) :
    D.Keeps w (ofExcept result) fun _ _ => True :=
  keeps_ofExcept raised fun _ _ _ _ => trivial

/-- A step that gives a value. -/
theorem keeps_giving {action : Action Value} (gives : ∀ v, action.yields v = [v])
    (given : ∀ v ∈ action.inputs, D.Covers w v) : D.Keeps w (act action) D.Covers :=
  D.keeps_weaken (D.keeps_act given) fun _ v has => has v (gives v ▸ .head _)

/-- A step of whose result nothing is asked. -/
theorem keeps_step {action : Action α} (given : ∀ v ∈ action.inputs, D.Covers w v) :
    D.Keeps w (act action) fun _ _ => True :=
  D.keeps_weaken (D.keeps_act given) fun _ _ _ => trivial

/-- A step whose result is dropped. -/
theorem keeps_act_nil {action : Action α} (given : ∀ v ∈ action.inputs, D.Covers w v) :
    D.Keeps w (act action >>= fun _ => pure .nil : m Value) D.Covers :=
  D.keeps_bind (keeps_step given) fun _ _ _ _ => D.keeps_pure fun w' _ => D.covers_nil w'

/-! ## What needs no level -/

theorem keeps_mapM_loop {f : α → m β} (good : D.World → β → Prop)
    (lasts : ∀ {w w' : D.World} {b}, D.Later w w' → good w b → good w' b) {items : List α}
    {done : List β} (keeps : ∀ item ∈ items, D.Keeps w (f item) good)
    (has : ∀ b ∈ done, good w b) :
    D.Keeps w (List.mapM.loop f items done) fun w' bs => ∀ b ∈ bs, good w' b := by
  induction items generalizing w done with
  | nil =>
    exact D.keeps_pure fun _ later b mem => lasts later (has b (List.mem_reverse.mp mem))
  | cons item items ih =>
    rw [List.forall_mem_cons] at keeps
    refine D.keeps_bind keeps.1 fun w' b later found => ?_
    refine ih (fun item mem => D.keeps_later later (keeps.2 item mem)) ?_
    exact List.forall_mem_cons.mpr ⟨found, fun b mem => lasts later (has b mem)⟩

theorem keeps_mapM {f : α → m β} (good : D.World → β → Prop)
    (lasts : ∀ {w w' : D.World} {b}, D.Later w w' → good w b → good w' b) {items : List α}
    (keeps : ∀ item ∈ items, D.Keeps w (f item) good) :
    D.Keeps w (items.mapM f) fun w' bs => ∀ b ∈ bs, good w' b :=
  keeps_mapM_loop good lasts keeps nofun

theorem keeps_forM {f : α → m PUnit} {items : List α}
    (keeps : ∀ item ∈ items, D.Keeps w (f item) fun _ _ => True) :
    D.Keeps w (items.forM f) fun _ _ => True := by
  induction items generalizing w with
  | nil => exact D.keeps_pure fun _ _ => trivial
  | cons item items ih =>
    rw [List.forall_mem_cons] at keeps
    refine D.keeps_bind keeps.1 fun w₁ _ later _ => ih fun item mem => ?_
    exact D.keeps_later later (keeps.2 item mem)

theorem keeps_bindParams (params : Params) {args : List Value} (scope : Scope)
    (given : ∀ v ∈ args, D.Covers w v) :
    D.Keeps w (bindParams params args scope) fun _ _ => True := by
  unfold bindParams
  refine D.keeps_bind (keeps_check (Arity.raisedBy_check _ _)) fun w₁ _ first _ => ?_
  have given := covers_all_later first given
  refine D.keeps_bind (keeps_forM fun bound mem => ?_) fun w₂ _ second _ => ?_
  · exact keeps_step (List.forall_mem_singleton.mpr (given _ (List.of_mem_zip mem).2))
  · cases params.rest with
    | none => exact D.keeps_pure fun _ _ => trivial
    | some name =>
      refine D.keeps_bind (keeps_giving (fun _ => rfl) fun v mem => ?_) fun _ surplus _ has => ?_
      · exact D.covers_later second (given v (List.mem_of_mem_drop mem))
      · exact keeps_step (List.forall_mem_singleton.mpr has)

theorem keeps_primitive (op : Primitive) {args : List Value} (given : ∀ v ∈ args, D.Covers w v) :
    D.Keeps w (op.run args) D.Covers := by
  unfold Primitive.run
  split
  · exact keeps_act_nil nofun
  · exact keeps_act_nil nofun
  · exact keeps_giving (fun _ => rfl) given
  · refine keeps_ofExcept (PairPart.raisedBy_of _ _) fun u has w' later => ?_
    exact D.covers_later later (covers_part (given _ (.head _)) has)
  · exact D.keeps_pure fun w' _ => D.covers_bool w' _
  · exact D.keeps_pure fun w' _ => D.covers_bool w' _
  · refine D.keeps_bind (keeps_check (Value.raisedBy_toInteger _)) fun _ _ _ _ => ?_
    refine D.keeps_bind (keeps_check (Value.raisedBy_toInteger _)) fun _ _ _ _ => ?_
    refine D.keeps_bind (keeps_check (Arithmetic.raisedBy_run _ _ _)) fun _ _ _ _ => ?_
    exact D.keeps_pure fun w' _ => D.covers_integer w' _
  · refine D.keeps_bind (keeps_check (Value.raisedBy_toInteger _)) fun _ _ _ _ => ?_
    refine D.keeps_bind (keeps_check (Value.raisedBy_toInteger _)) fun _ _ _ _ => ?_
    exact D.keeps_pure fun w' _ => D.covers_bool w' _
  · exact D.keeps_fail trivial

theorem keeps_makeClosure (scope : Scope) (kind : ClosureKind) {args : List Value}
    (given : ∀ v ∈ args, D.Covers w v) :
    D.Keeps w (makeClosure scope kind args) D.Covers := by
  unfold makeClosure
  split
  · next params first body =>
    refine D.keeps_bind (keeps_check (Params.raisedBy_ofTerm _)) fun w₁ _ later _ => ?_
    refine D.keeps_bind (keeps_giving (fun _ => rfl) ?_) fun w₂ body _ covered => ?_
    · refine List.forall_mem_cons.mpr ⟨D.covers_begin w₁, fun v mem => ?_⟩
      exact D.covers_later later (given v (.tail _ mem))
    · exact keeps_giving (fun _ => rfl) (List.forall_mem_singleton.mpr covered)
  · exact D.keeps_fail trivial

/-! ## One level -/

variable (D) in
/-- A level whose evaluators keep to a discipline. -/
structure Level (inner : GuardedLisp.Level m) : Prop where
  eval {w : D.World} (grants : Grants) (scope : Scope) {term : Value} :
    D.Covers w term → D.Keeps w (inner.eval grants scope term) D.Covers
  expand {w : D.World} (grants : Grants) (scope : Scope) {template : Value} :
    D.Covers w template → D.Keeps w (inner.expand grants scope template) D.Covers

section Level

variable {inner : GuardedLisp.Level m} (level : D.Level inner) (grants : Grants) (scope : Scope)

include level

theorem keeps_evalAll {terms : List Value} (given : ∀ v ∈ terms, D.Covers w v) :
    D.Keeps w (inner.evalAll grants scope terms) fun w' values => ∀ v ∈ values, D.Covers w' v :=
  keeps_mapM D.Covers D.covers_later fun term mem => level.eval grants scope (given term mem)

theorem keeps_evalLast {term : Value} {terms : List Value} (first : D.Covers w term)
    (given : ∀ v ∈ terms, D.Covers w v) :
    D.Keeps w (inner.evalLast grants scope term terms) D.Covers := by
  induction terms generalizing w term with
  | nil => exact level.eval grants scope first
  | cons next terms ih =>
    rw [List.forall_mem_cons] at given
    refine D.keeps_bind (level.eval grants scope first) fun w₁ _ later _ => ?_
    exact ih (D.covers_later later given.1) (covers_all_later later given.2)

/-- What is no class is shown as it is, and it has been met. -/
theorem keeps_evalClass {term : Value} (given : D.Covers w term) :
    D.Keeps w (inner.evalClass grants scope term) fun w' id => D.Covers w' (.classObject id) := by
  refine D.keeps_bind (level.eval grants scope given) fun w₁ v _ covered => ?_
  split
  · exact D.keeps_pure fun w' later => D.covers_later later covered
  · exact D.keeps_fail ⟨_, covered, rfl⟩

theorem keeps_define {args : List Value} (given : ∀ v ∈ args, D.Covers w v) :
    D.Keeps w (inner.define grants scope args) D.Covers := by
  unfold Level.define
  split
  · next name term =>
    have covered := given term (.tail _ (.head _))
    refine D.keeps_bind (level.eval grants scope covered) fun _ _ _ has => ?_
    exact keeps_act_nil (List.forall_mem_singleton.mpr has)
  · next address name params first body =>
    obtain ⟨signature, given⟩ := List.forall_mem_cons.mp given
    refine D.keeps_bind (keeps_giving (fun _ => rfl) ?_) fun w₁ term _ covered => ?_
    · refine List.forall_mem_cons.mpr ⟨D.covers_lambda w, ?_⟩
      exact List.forall_mem_cons.mpr ⟨(D.covers_pair signature).2, given⟩
    · refine D.keeps_bind (level.eval grants scope covered) fun _ _ _ has => ?_
      exact keeps_act_nil (List.forall_mem_singleton.mpr has)
  · exact D.keeps_fail trivial
  · exact D.keeps_fail trivial
  · exact D.keeps_fail trivial

theorem keeps_assign {args : List Value} (given : ∀ v ∈ args, D.Covers w v) :
    D.Keeps w (inner.assign grants scope args) D.Covers := by
  unfold Level.assign
  split
  · next name term =>
    obtain ⟨named, given⟩ := List.forall_mem_cons.mp given
    have covered := List.forall_mem_singleton.mp given
    refine D.keeps_bind (level.eval grants scope covered) fun _ _ later has => ?_
    refine keeps_act_nil (List.forall_mem_cons.mpr ⟨D.covers_later later named, ?_⟩)
    exact List.forall_mem_singleton.mpr has
  · exact D.keeps_fail trivial
  · exact D.keeps_fail trivial

theorem keeps_branch {args : List Value} (given : ∀ v ∈ args, D.Covers w v) :
    D.Keeps w (inner.branch grants scope args) D.Covers := by
  unfold Level.branch
  split
  · next condition consequent =>
    have consequent := given consequent (.tail _ (.head _))
    refine D.keeps_bind (level.eval grants scope (given condition (.head _))) fun _ _ later _ => ?_
    split
    · exact level.eval grants scope (D.covers_later later consequent)
    · exact D.keeps_pure fun w' _ => D.covers_nil w'
  · next condition consequent alternative =>
    have consequent := given consequent (.tail _ (.head _))
    have alternative := given alternative (.tail _ (.tail _ (.head _)))
    refine D.keeps_bind (level.eval grants scope (given condition (.head _))) fun _ _ later _ => ?_
    split
    · exact level.eval grants scope (D.covers_later later consequent)
    · exact level.eval grants scope (D.covers_later later alternative)
  · exact D.keeps_fail trivial

theorem keeps_newClass {args : List Value} (given : ∀ v ∈ args, D.Covers w v) :
    D.Keeps w (inner.newClass grants scope args) D.Covers := by
  unfold Level.newClass
  refine D.keeps_bind (keeps_mapM (fun w' id => D.Covers w' (.classObject id)) D.covers_later
    fun term mem => keeps_evalClass level grants scope (given term mem)) fun _ parents _ above => ?_
  refine D.keeps_bind (D.keeps_act (List.forall_mem_map.mpr above)) fun _ id _ has => ?_
  exact D.keeps_pure fun _ later => D.covers_later later (has _ (.head _))

theorem keeps_classDefine {args : List Value} (given : ∀ v ∈ args, D.Covers w v) :
    D.Keeps w (inner.classDefine grants scope args) D.Covers := by
  unfold Level.classDefine
  split
  · next target name =>
    refine D.keeps_bind (keeps_evalClass level grants scope (given target (.head _)))
      fun _ id _ has => ?_
    refine D.keeps_bind (keeps_check (LiteralRole.raisedBy_read _ _)) fun _ _ later _ => ?_
    exact keeps_act_nil (List.forall_mem_singleton.mpr (D.covers_later later has))
  · next target name datatype =>
    refine D.keeps_bind (keeps_evalClass level grants scope (given target (.head _)))
      fun _ id _ has => ?_
    refine D.keeps_bind (keeps_check (LiteralRole.raisedBy_read _ _)) fun _ _ first _ => ?_
    refine D.keeps_bind (keeps_check (Datatype.raisedBy_ofTerm _)) fun _ _ second _ => ?_
    have has := D.covers_later (D.later_trans first second) has
    exact keeps_act_nil (List.forall_mem_singleton.mpr has)
  · exact D.keeps_fail trivial

theorem keeps_classSet {args : List Value} (given : ∀ v ∈ args, D.Covers w v) :
    D.Keeps w (inner.classSet grants scope args) D.Covers := by
  unfold Level.classSet
  split
  · next target name term =>
    have named : D.Covers w name := given name (.tail _ (.head _))
    have covered : D.Covers w term := given term (.tail _ (.tail _ (.head _)))
    refine D.keeps_bind (keeps_evalClass level grants scope (given target (.head _)))
      fun w₁ id first has => ?_
    -- The name of the slot is a term of the form, so it has been met.
    have literal (read : Symbol) (found : LiteralRole.slotName.read name = .ok read)
        (w' : D.World) (later : D.Later w₁ w') : D.Covers w' (.symbol read) := by
      rw [LiteralRole.of_read_eq_ok found] at named
      exact D.covers_later (D.later_trans first later) named
    refine D.keeps_bind (keeps_ofExcept (LiteralRole.raisedBy_read _ _) literal)
      fun w₂ read second named => ?_
    have covered := D.covers_later (D.later_trans first second) covered
    refine D.keeps_bind (level.eval grants scope covered) fun w₃ value third covered => ?_
    refine keeps_act_nil (List.forall_mem_cons.mpr ⟨?_, ?_⟩)
    · exact D.covers_later (D.later_trans second third) has
    · exact List.forall_mem_cons.mpr
        ⟨D.covers_later third named, List.forall_mem_singleton.mpr covered⟩
  · exact D.keeps_fail trivial

theorem keeps_classChmod {args : List Value} (given : ∀ v ∈ args, D.Covers w v) :
    D.Keeps w (inner.classChmod grants scope args) D.Covers := by
  unfold Level.classChmod
  split
  · next target name flags =>
    refine D.keeps_bind (keeps_evalClass level grants scope (given target (.head _)))
      fun _ id _ has => ?_
    refine D.keeps_bind (keeps_check (LiteralRole.raisedBy_read _ _)) fun _ _ first _ => ?_
    refine D.keeps_bind (keeps_check (Error.raisedBy_mapM PermissionFlag.raisedBy_ofTerm _))
      fun _ _ second _ => ?_
    have has := D.covers_later (D.later_trans first second) has
    exact keeps_act_nil (List.forall_mem_singleton.mpr has)
  · exact D.keeps_fail trivial

theorem keeps_classFinalize {args : List Value} (given : ∀ v ∈ args, D.Covers w v) :
    D.Keeps w (inner.classFinalize grants scope args) D.Covers := by
  unfold Level.classFinalize
  split
  · next target =>
    refine D.keeps_bind (keeps_evalClass level grants scope (given target (.head _)))
      fun _ id _ has => ?_
    exact keeps_act_nil (List.forall_mem_singleton.mpr has)
  · exact D.keeps_fail trivial

theorem keeps_applyForm (form : SpecialForm) {args : List Value}
    (given : ∀ v ∈ args, D.Covers w v) :
    D.Keeps w (inner.applyForm grants scope form args) D.Covers := by
  cases form with
  | quote =>
    simp only [Level.applyForm]
    split
    · exact D.keeps_pure fun _ later => D.covers_later later (given _ (.head _))
    · exact D.keeps_fail trivial
  | assign => exact keeps_assign level grants scope given
  | define => exact keeps_define level grants scope given
  | branch => exact keeps_branch level grants scope given
  | lambda => exact keeps_makeClosure scope .function given
  | begin =>
    cases args with
    | nil => exact D.keeps_fail trivial
    | cons term terms =>
      rw [List.forall_mem_cons] at given
      exact keeps_evalLast level grants scope given.1 given.2
  | newClass => exact keeps_newClass level grants scope given
  | classDefine => exact keeps_classDefine level grants scope given
  | classSet => exact keeps_classSet level grants scope given
  | classChmod => exact keeps_classChmod level grants scope given
  | classFinalize => exact keeps_classFinalize level grants scope given
  | transformer => exact keeps_makeClosure scope .transformer given
  | quasiquote =>
    simp only [Level.applyForm]
    split
    · exact level.expand grants scope (given _ (.head _))
    · exact D.keeps_fail trivial
  | unquote => exact D.keeps_fail trivial

theorem keeps_unquote (part : Value) {operands : Value} (given : D.Covers w operands) :
    D.Keeps w (inner.unquote grants scope part operands) D.Covers := by
  unfold Level.unquote
  refine D.keeps_bind (keeps_ofExcept (Value.raisedBy_elements _) fun terms list w' later =>
    covers_all_later later (covers_elements given list)) fun _ terms _ covered => ?_
  split
  · exact level.eval grants scope (covered _ (.head _))
  · exact D.keeps_fail trivial

/-- Expansion of a chain walks the chain, so this is an induction on the template. -/
theorem keeps_expandChain {template : Value} (given : D.Covers w template) :
    D.Keeps w (inner.expandChain grants scope template) D.Covers := by
  induction template generalizing w with
  | pair address first rest _ ih =>
    obtain ⟨covered, others⟩ := D.covers_pair given
    simp only [Level.expandChain]
    split
    · exact keeps_unquote level grants scope _ others
    · exact D.keeps_pure fun _ later => D.covers_later later given
    · exact D.keeps_fail trivial
    · refine D.keeps_bind (level.expand grants scope covered) fun _ first later covered => ?_
      refine D.keeps_bind (ih (D.covers_later later others)) fun _ rest later has => ?_
      refine keeps_giving (fun _ => rfl) (List.forall_mem_cons.mpr ⟨?_, ?_⟩)
      · exact D.covers_later later covered
      · exact List.forall_mem_singleton.mpr has
  | _ => exact D.keeps_pure fun _ later => D.covers_later later given

theorem keeps_applyBuiltin (op : Builtin) {args : List Value} (given : ∀ v ∈ args, D.Covers w v) :
    D.Keeps w (inner.applyBuiltin grants scope op args) D.Covers := by
  cases op with
  | form form => exact keeps_applyForm level grants scope form given
  | primitive op =>
    refine D.keeps_bind (keeps_evalAll level grants scope given) fun _ values _ covered => ?_
    refine D.keeps_bind (keeps_check (Arity.raisedBy_check _ _)) fun _ _ later _ => ?_
    exact keeps_primitive op (covers_all_later later covered)

theorem keeps_applyFunction (params : Params) {body : Value} (home : Scope) {args : List Value}
    (code : D.Covers w body) (given : ∀ v ∈ args, D.Covers w v) :
    D.Keeps w (inner.applyFunction grants scope params body home args) D.Covers := by
  unfold Level.applyFunction
  refine D.keeps_bind (keeps_evalAll level grants scope given) fun _ values first covered => ?_
  refine D.keeps_bind (keeps_step nofun) fun _ frame second _ => ?_
  refine D.keeps_bind (keeps_bindParams params frame (covers_all_later second covered))
    fun _ _ third _ => ?_
  exact level.eval grants frame
    (D.covers_later (D.later_trans first (D.later_trans second third)) code)

theorem keeps_applyTransformer (params : Params) {body : Value} (home : Scope) {args : List Value}
    (code : D.Covers w body) (given : ∀ v ∈ args, D.Covers w v) :
    D.Keeps w (inner.applyTransformer grants scope params body home args) D.Covers := by
  unfold Level.applyTransformer
  refine D.keeps_bind (keeps_step nofun) fun _ frame first _ => ?_
  refine D.keeps_bind (keeps_bindParams params frame (covers_all_later first given))
    fun _ _ second _ => ?_
  refine D.keeps_bind
    (level.eval grants frame (D.covers_later (D.later_trans first second) code))
    fun _ expansion _ covered => ?_
  exact level.eval grants scope covered

/-- A selector is evaluated for a symbol, of which nothing is asked. -/
theorem keeps_selectSlot {selector : Value} (given : D.Covers w selector) :
    D.Keeps w (inner.selectSlot grants scope selector) fun _ _ => True := by
  unfold Level.selectSlot
  split
  · exact D.keeps_pure fun _ _ => trivial
  · refine D.keeps_bind (level.eval grants scope given) fun _ v _ _ => ?_
    split
    · exact D.keeps_pure fun _ _ => trivial
    · exact D.keeps_fail trivial

/-- A chain of selectors is an induction on the arguments. -/
theorem keeps_apply {callable : Value} {args : List Value} (called : D.Covers w callable)
    (given : ∀ v ∈ args, D.Covers w v) :
    D.Keeps w (inner.apply grants scope callable args) D.Covers := by
  induction args generalizing w grants scope callable with
  | nil =>
    unfold Level.apply
    refine D.keeps_calling ?_
    split
    · exact keeps_applyBuiltin level grants scope _ given
    · exact keeps_applyFunction level grants scope _ _ (D.covers_body called) given
    · exact keeps_applyTransformer level grants scope _ _ (D.covers_body called) given
    · exact D.keeps_fail trivial
    · contradiction
    · exact D.keeps_fail trivial
  | cons selector args ih =>
    unfold Level.apply
    refine D.keeps_calling ?_
    split
    · exact keeps_applyBuiltin level grants scope _ given
    · exact keeps_applyFunction level grants scope _ _ (D.covers_body called) given
    · exact keeps_applyTransformer level grants scope _ _ (D.covers_body called) given
    · contradiction
    · next id equal =>
      obtain ⟨rfl, rfl⟩ := List.cons.inj equal
      rw [List.forall_mem_cons] at given
      refine D.keeps_bind (keeps_selectSlot level grants scope given.1) fun w₁ name first _ => ?_
      have made : D.Covers w₁ (.classObject id) := D.covers_later first called
      refine D.keeps_bind (keeps_giving (fun _ => rfl) (List.forall_mem_singleton.mpr made))
        fun w₂ v second covered => ?_
      split
      · refine D.keeps_bind (keeps_step nofun) fun w₃ frame third _ => ?_
        refine D.keeps_bind (keeps_step (List.forall_mem_singleton.mpr ?_)) fun w₄ _ fourth _ => ?_
        · exact D.covers_later (D.later_trans second third) made
        · have later := D.later_trans third fourth
          refine ih (id :: grants) frame (D.covers_later later covered) ?_
          exact covers_all_later (D.later_trans first (D.later_trans second later)) given.2
      · split
        · exact D.keeps_pure fun _ later => D.covers_later later covered
        · exact D.keeps_fail trivial
    · exact D.keeps_fail trivial

theorem keeps_evalTerm (names : D.Names) {term : Value} (given : D.Covers w term) :
    D.Keeps w (inner.evalTerm grants scope term) D.Covers := by
  cases term with
  | symbol name => exact keeps_giving (fun _ => rfl) nofun
  | pair address first rest =>
    obtain ⟨head, tail⟩ := D.covers_pair given
    refine D.keeps_bind (level.eval grants scope head) fun w₁ callable first called => ?_
    have tail := D.covers_later first tail
    refine D.keeps_bind (keeps_ofExcept (Value.raisedBy_elements _) fun args list w' later =>
      covers_all_later later (covers_elements tail list)) fun w₂ args second covered => ?_
    refine names (D.covers_later (D.later_trans first second) given) ?_
    exact keeps_apply level grants scope (D.covers_later second called) covered
  | _ => exact D.keeps_pure fun _ later => D.covers_later later given

end Level

/-! ## All levels -/

/-- **Evaluation keeps to every discipline** that naming does not break, and so does expansion of
templates. -/
theorem level_evalAt (names : D.Names) (limit left : Nat) :
    D.Level ⟨evalAt limit left, expandAt limit left⟩ := by
  induction left with
  | zero =>
    constructor
    · intro w grants scope term _
      exact D.keeps_fail trivial
    · intro w grants scope template given
      -- With no level left a template still expands to itself unless it is a pair.
      cases template with
      | pair address first rest => exact D.keeps_fail trivial
      | _ => exact D.keeps_pure fun _ later => D.covers_later later given
  | succ left level =>
    constructor
    · intro w grants scope term given
      exact keeps_evalTerm level grants scope names given
    · intro w grants scope template given
      exact keeps_expandChain level grants scope given

end Discipline

end GuardedLisp
