import GuardedLisp.Proofs.Likeness
import GuardedLisp.Proofs.Reachable
import GuardedLisp.Proofs.Renaming.Mirror
import Mathlib.Logic.Function.Basic

/-!
# One heap

A value carries all that it is made of, so of two pairs at one address the parts might differ.  They
never do.  An address is given out once, together with the value that is made there, and values do
not change.  So at every time there is one heap for all values that may be met, and it only grows.

Memories are the worlds of a `Discipline` here, and its computations are those that end with a later
memory for their store.

## Main definitions

* `Memory`, `Memory.Later`: the addresses that have been given out, and what is there
* `Memory.Has`, `Memory.Fits`: the values, and the stores, that lie in a memory
* `Alloc.Makes`: new values lie in a later memory

## Main results

* `Memory.fits_eval`: evaluation ends with a later memory for the store and the value
* `Interpreter.exists_heap`: the values in the store of an interpreter lie in one heap
-/

namespace GuardedLisp

open Machine (act fail during)

/-- The addresses that have been given out are those below a bound, and this is what is there. -/
structure Memory where
  heap : Heap
  next : Address

namespace Memory

/-- More addresses have been given out, and at the old ones there is what was there. -/
structure Later (M M' : Memory) : Prop where
  le : M.next ≤ M'.next
  same : ∀ a < M.next, M.heap a = M'.heap a

/-- A value is made of what is at addresses that have been given out. -/
structure Has (M : Memory) (v : Value) : Prop where
  lies : v.LiesIn M.heap
  below : v.Below M.next

/-- A memory is that of a store: the next address is the same, and it has all values in slots. -/
structure Fits (M : Memory) (s : Store) : Prop where
  next : s.nextAddress = M.next
  holds : s.Holds M.Has

/-- A value is made at the next address. -/
def put (M : Memory) (v : Value) : Memory where
  heap := Function.update M.heap M.next v
  next := M.next + 1

variable {M M' M'' : Memory}

theorem Later.refl (M : Memory) : M.Later M := ⟨Nat.le_refl _, fun _ _ => rfl⟩

theorem Later.trans (first : M.Later M') (second : M'.Later M'') : M.Later M'' where
  le := Nat.le_trans first.le second.le
  same a given := (first.same a given).trans (second.same a (Nat.lt_of_lt_of_le given first.le))

theorem later_put (M : Memory) (v : Value) : M.Later (M.put v) where
  le := Nat.le_succ _
  same _ given := (Function.update_of_ne (Nat.ne_of_lt given) ..).symm

theorem heap_put (M : Memory) (v : Value) : (M.put v).heap M.next = v :=
  Function.update_self ..

end Memory

/-- A value lies in every heap that has the same at the addresses in it. -/
theorem Value.LiesIn.congr {heap heap' : Heap} {bound : Address} {v : Value}
    (same : ∀ a < bound, heap a = heap' a) (below : v.Below bound) (lies : v.LiesIn heap) :
    v.LiesIn heap' := by
  induction v with
  | string a text => exact (same a below).symm.trans lies
  | pair a first rest ihFirst ihRest =>
    obtain ⟨here, inFirst, inRest⟩ := below
    exact ⟨(same a here).symm.trans lies.1, ihFirst inFirst lies.2.1, ihRest inRest lies.2.2⟩
  | closure a kind params body home ih =>
    obtain ⟨here, inBody⟩ := below_closure.mp below
    exact ⟨(same a here).symm.trans lies.1, ih inBody lies.2⟩
  | _ => trivial

namespace Memory

variable {M M' : Memory} {s : Store}

theorem Has.later {v : Value} (later : M.Later M') (has : M.Has v) : M'.Has v where
  lies := has.lies.congr later.same has.below
  below := Value.below_mono later.le has.below

/-! ## What is made -/

theorem has_string (M : Memory) (text : String) :
    (M.put (.string M.next text)).Has (.string M.next text) where
  lies := M.heap_put _
  below := Nat.lt_succ_self _

theorem Has.pair {first rest : Value} (hasFirst : M.Has first) (hasRest : M.Has rest) :
    (M.put (.pair M.next first rest)).Has (.pair M.next first rest) := by
  have later := M.later_put (.pair M.next first rest)
  have inFirst := hasFirst.later later
  have inRest := hasRest.later later
  exact ⟨⟨M.heap_put _, inFirst.lies, inRest.lies⟩, Nat.lt_succ_self _, inFirst.below, inRest.below⟩

theorem Has.closure (kind : ClosureKind) (params : Params) {body : Value} (home : Scope)
    (hasBody : M.Has body) :
    (M.put (.closure M.next kind params body home)).Has
      (.closure M.next kind params body home) := by
  have inBody := hasBody.later (M.later_put (.closure M.next kind params body home))
  exact ⟨⟨M.heap_put _, inBody.lies⟩, Value.below_closure.mpr ⟨Nat.lt_succ_self _, inBody.below⟩⟩

end Memory

namespace Alloc

open Memory

/-- Started with a memory, a computation ends with a later one, in which what it makes has a
property. -/
def Makes (M : Memory) (make : Alloc α) (good : Memory → α → Prop) : Prop :=
  ∃ M', M.Later M' ∧ M'.next = (make.run M.next).2 ∧ good M' (make.run M.next).1

variable {M : Memory} {good : Memory → α → Prop} {fair : Memory → β → Prop}

theorem makes_pure {a : α} (has : good M a) : Makes M (pure a) good := ⟨M, .refl M, rfl, has⟩

theorem makes_bind {make : Alloc α} {f : α → Alloc β} (first : Makes M make good)
    (rest : ∀ M' a, M.Later M' → good M' a → Makes M' (f a) fair) : Makes M (make >>= f) fair := by
  obtain ⟨M₁, later, next, has⟩ := first
  obtain ⟨M₂, further, last, made⟩ := rest M₁ _ later has
  rw [next] at last made
  exact ⟨M₂, later.trans further, last, made⟩

theorem makes_pair {first rest : Value} (hasFirst : M.Has first) (hasRest : M.Has rest) :
    Makes M (pair first rest) Has :=
  ⟨M.put (.pair M.next first rest), M.later_put _, rfl, hasFirst.pair hasRest⟩

theorem makes_closure (kind : ClosureKind) (params : Params) {body : Value} (home : Scope)
    (hasBody : M.Has body) :
    Makes M (do return .closure (← fresh) kind params body home) Has :=
  ⟨M.put (.closure M.next kind params body home), M.later_put _, rfl,
    hasBody.closure kind params home⟩

theorem makes_list {items : List Value} (has : ∀ item ∈ items, M.Has item) :
    Makes M (list items) Has := by
  unfold list
  induction items with
  | nil => exact makes_pure ⟨trivial, trivial⟩
  | cons item items ih =>
    rw [List.forall_mem_cons] at has
    rw [chain_cons]
    exact makes_bind (ih has.2) fun M' rest later hasRest =>
      makes_pair (has.1.later later) hasRest

theorem makes_ofDatum (datum : Datum) (M : Memory) : Makes M (ofDatum datum) Has := by
  induction datum generalizing M with
  | string text => exact ⟨M.put (.string M.next text), M.later_put _, rfl, M.has_string text⟩
  | pair first rest ihFirst ihRest =>
    refine makes_bind (ihFirst M) fun M₁ first _ hasFirst => ?_
    refine makes_bind (ihRest M₁) fun M₂ rest later hasRest => ?_
    exact makes_pair (hasFirst.later later) hasRest
  | _ => exact makes_pure ⟨trivial, trivial⟩

theorem makes_mapM_ofDatum (data : List Datum) (M : Memory) :
    Makes M (data.mapM ofDatum) fun M' forms => ∀ form ∈ forms, M'.Has form := by
  induction data generalizing M with
  | nil => exact makes_pure (List.forall_mem_nil _)
  | cons datum data ih =>
    rw [List.mapM_cons]
    refine makes_bind (makes_ofDatum datum M) fun M₁ form _ has => ?_
    refine makes_bind (ih M₁) fun M₂ forms later hasAll => ?_
    exact makes_pure (List.forall_mem_cons.mpr ⟨has.later later, hasAll⟩)

/-- New values do not change what is in slots. -/
theorem Makes.fits {make : Alloc α} {s : Store} (makes : Makes M make good) (fits : M.Fits s) :
    ∃ M', M.Later M' ∧ M'.Fits ((EvalM.alloc make).after s) ∧
      ∀ a, (EvalM.alloc make).outcome s = .ok a → good M' a := by
  obtain ⟨M', later, next, made⟩ := makes
  rw [← fits.next] at next made
  have holds := fits.holds.mono fun _ => Has.later later
  refine ⟨M', later, ⟨next.symm, holds.frames, holds.classes⟩, fun a ran => ?_⟩
  obtain rfl := Except.ok.inj ran
  exact made

end Alloc

/-! ## Steps -/

namespace Memory

variable {M M' : Memory} {s : Store}

/-- **A step ends with a later memory for its store** and for the values that it gives. -/
theorem Fits.act (fits : M.Fits s) (action : Action α) (given : ∀ v ∈ action.operands, M.Has v) :
    ∃ M', M.Later M' ∧ M'.Fits (action.run.after s) ∧
      ∀ a, action.run.outcome s = .ok a → ∀ v ∈ action.yields a, M'.Has v := by
  have holds : (action.run.after s).Holds M.Has := fits.holds.after action fun v written =>
    given v (Action.mem_operands_of_mem_value? written)
  have kept (same : (action.run.after s).nextAddress = s.nextAddress)
      (has : ∀ a, action.run.outcome s = .ok a → ∀ v ∈ action.yields a, M.Has v) :
      ∃ M', M.Later M' ∧ M'.Fits (action.run.after s) ∧
        ∀ a, action.run.outcome s = .ok a → ∀ v ∈ action.yields a, M'.Has v :=
    ⟨M, .refl M, ⟨same.trans fits.next, holds⟩, has⟩
  cases action with
  | pair first rest =>
    obtain ⟨inFirst, given⟩ := List.forall_mem_cons.mp given
    obtain ⟨M', later, fits, made⟩ :=
      (Alloc.makes_pair inFirst (List.forall_mem_singleton.mp given)).fits fits
    exact ⟨M', later, fits, fun a ran => List.forall_mem_singleton.mpr (made a ran)⟩
  | list items =>
    obtain ⟨M', later, fits, made⟩ := (Alloc.makes_list given).fits fits
    exact ⟨M', later, fits, fun a ran => List.forall_mem_singleton.mpr (made a ran)⟩
  | closure kind params body scope =>
    obtain ⟨M', later, fits, made⟩ :=
      (Alloc.makes_closure kind params scope (List.forall_mem_singleton.mp given)).fits fits
    exact ⟨M', later, fits, fun a ran => List.forall_mem_singleton.mpr (made a ran)⟩
  | lookup scope name =>
    refine kept (congrArg Store.nextAddress (EvalM.after_ask _ s)) fun v ran => ?_
    exact List.forall_mem_singleton.mpr (fits.holds.of_lookup (EvalM.outcome_ask _ s ▸ ran))
  | readSlot id name access =>
    refine kept (congrArg Store.nextAddress (EvalM.after_ask _ s)) fun v ran => ?_
    exact List.forall_mem_singleton.mpr (fits.holds.of_get (EvalM.outcome_ask _ s ▸ ran))
  | newClass parents => exact kept rfl fun _ _ => List.forall_mem_singleton.mpr ⟨trivial, trivial⟩
  | define scope name value =>
    refine kept ?_ fun _ _ => List.forall_mem_nil _
    exact EvalM.after_edit_eq Store.nextAddress (fun _ _ => Store.nextAddress_define) s
  | assign scope name value =>
    refine kept ?_ fun _ _ => List.forall_mem_nil _
    exact EvalM.after_edit_eq Store.nextAddress (fun _ _ => Store.nextAddress_assign) s
  | defineSlot | writeSlot | chmodSlot =>
    refine kept ?_ fun _ _ => List.forall_mem_nil _
    simp only [Action.run, EvalM.after_editSlots]
    split <;> rfl
  | enter | finalise | print => exact kept rfl fun _ _ => List.forall_mem_nil _

/-! ## Computations -/

/-- Started with a memory for its store that is `M` or later, a computation ends with a later one,
in which what it gives has a property. -/
def Keeps (M : Memory) (x : EvalM α) (good : Memory → α → Prop) : Prop :=
  ∀ M₁ s, M.Later M₁ → M₁.Fits s →
    ∃ M₂, M₁.Later M₂ ∧ M₂.Fits (x.after s) ∧ ∀ a, x.outcome s = .ok a → good M₂ a

variable {good : Memory → α → Prop} {fair : Memory → β → Prop}

theorem keeps_pure {a : α} (has : ∀ M', M.Later M' → good M' a) :
    Keeps M (pure a) good := by
  intro M₁ s later fits
  refine ⟨M₁, .refl M₁, fits, fun b ran => ?_⟩
  obtain rfl := Except.ok.inj ran
  exact has M₁ later

theorem keeps_fail (e : Error) (good : Memory → α → Prop) :
    Keeps M (fail e : EvalM α) good := by
  intro M₁ s _ fits
  refine ⟨M₁, .refl M₁, fits, fun a ran => ?_⟩
  cases ran

theorem keeps_bind {x : EvalM α} {f : α → EvalM β} (first : Keeps M x good)
    (rest : ∀ M' a, M.Later M' → good M' a → Keeps M' (f a) fair) :
    Keeps M (x >>= f) fair := by
  intro M₁ s later fits
  obtain ⟨M₂, further, fits, has⟩ := first M₁ s later fits
  rw [EvalM.after_bind, EvalM.outcome_bind]
  split
  · next a ran =>
    have since := later.trans further
    obtain ⟨M₃, last, fits, made⟩ := rest M₂ a since (has a ran) M₂ _ (.refl M₂) fits
    exact ⟨M₃, further.trans last, fits, made⟩
  · refine ⟨M₂, further, fits, fun b ran => ?_⟩
    cases ran

theorem keeps_during (application : Value) {x : EvalM α} (keeps : Keeps M x good) :
    Keeps M (during application x) good := by
  intro M₁ s later fits
  obtain ⟨M₂, further, fits, has⟩ := keeps M₁ s later fits
  refine ⟨M₂, further, (EvalM.after_during application x s).symm ▸ fits, fun a ran => ?_⟩
  exact has a (EvalM.outcome_during_eq_ok.mp ran)

theorem keeps_act {action : Action α} (given : ∀ v ∈ action.operands, M.Has v) :
    Keeps M (act action) fun M' a => ∀ v ∈ action.yields a, M'.Has v :=
  fun _ _ later fits => fits.act action fun v mem => (given v mem).later later

/-- What lies in memories is a discipline. -/
def discipline : Discipline EvalM where
  World := Memory
  Later := Later
  Covers := Has
  Keeps := Keeps
  later_trans := Later.trans
  covers_later := Has.later
  covers_pair has := ⟨⟨has.lies.2.1, has.below.2.1⟩, has.lies.2.2, has.below.2.2⟩
  covers_body has := ⟨has.lies.2, (Value.below_closure.mp has.below).2⟩
  covers_nil _ := ⟨trivial, trivial⟩
  covers_bool _ _ := ⟨trivial, trivial⟩
  covers_integer _ _ := ⟨trivial, trivial⟩
  covers_begin _ := ⟨trivial, trivial⟩
  covers_lambda _ := ⟨trivial, trivial⟩
  keeps_pure := keeps_pure
  keeps_fail _ := keeps_fail _ _
  keeps_bind := keeps_bind
  keeps_calling keeps := keeps
  keeps_act given := keeps_act fun v mem => given v (Action.mem_inputs_of_mem_operands mem)
  keeps_weaken keeps weaker M₁ s later fits := by
    obtain ⟨M₂, further, fits, has⟩ := keeps M₁ s later fits
    exact ⟨M₂, further, fits, fun a ran => weaker M₂ a (has a ran)⟩
  keeps_later later keeps M₁ s further := keeps M₁ s (later.trans further)

theorem names_discipline : discipline.Names := fun _ => keeps_during _

/-- **Evaluation ends with a later memory** for the store, and for the value if there is one. -/
theorem fits_eval (fits : M.Fits s) (ctx : Context) (scope : Scope) {term : Value}
    (has : M.Has term) :
    ∃ M', M.Later M' ∧ M'.Fits (EvalM.after (ctx.eval scope term) s) ∧
      ∀ v, EvalM.outcome (ctx.eval scope term) s = .ok v → M'.Has v :=
  (Discipline.level_evalAt names_discipline ctx.limit (ctx.limit - ctx.depth)).eval ctx.grants
    scope has
    M s (.refl M) fits

end Memory

/-! ## Interpreters -/

theorem Store.exists_fits_initial : ∃ M : Memory, M.Fits initial := by
  refine ⟨⟨fun _ => .nil, 0⟩, rfl, ?_⟩
  exact holds_initial (fun _ => ⟨trivial, trivial⟩) ⟨trivial, trivial⟩
    (fun _ => ⟨trivial, trivial⟩) ⟨trivial, trivial⟩

/-- That there is a memory for the store and for the later forms. -/
def Upkeep.memory : Upkeep where
  Knows s forms := ∃ M : Memory, M.Fits s ∧ ∀ form ∈ forms, M.Has form
  forget knows := by
    obtain ⟨M, fits, -⟩ := knows
    exact ⟨M, fits, List.forall_mem_nil _⟩
  eval ctx knows := by
    obtain ⟨M, fits, has⟩ := knows
    rw [List.forall_mem_cons] at has
    obtain ⟨M', later, fits, -⟩ := Memory.fits_eval fits ctx globalScope has.1
    exact ⟨M', fits, fun form mem => (has.2 form mem).later later⟩
  read {_ _ _ _ data} _ knows := by
    obtain ⟨M, fits, -⟩ := knows
    obtain ⟨M', -, fits, made⟩ := (Alloc.makes_mapM_ofDatum data M).fits fits
    exact ⟨M', fits, made _ rfl⟩

/-- **The values in the store of an interpreter lie in one heap**, whatever texts it has taken, in
whatever ways and with whatever limit. -/
theorem Interpreter.exists_heap (limit : Nat) (script : List (Driver × String)) :
    ∃ heap : Heap, ((fresh limit).serveAll script).2.store.Holds (Value.LiesIn heap) := by
  obtain ⟨M₀, start⟩ := Store.exists_fits_initial
  have knows : Upkeep.memory.Knows (fresh limit).store [] := ⟨M₀, start, List.forall_mem_nil _⟩
  obtain ⟨M, fits, -⟩ := Upkeep.memory.knows_serveAll knows script
  exact ⟨M.heap, fits.holds.mono fun _ => Memory.Has.lies⟩

end GuardedLisp
