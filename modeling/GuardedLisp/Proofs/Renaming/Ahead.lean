import GuardedLisp.Proofs.Renaming.Turn

/-!
# Reading ahead

Forms may all be read before the first of them is evaluated, or each group of them may be read just
before it is evaluated.  Reading takes fresh addresses, so the two orders call the values that are
made by different addresses.  Nothing else differs.

While the forms have their turns, the interpreter that has read ahead has the addresses of the
forms that are still to come set aside.  What the other interpreter has made so far lies elsewhere.

## Main definitions

* `Alloc.ofData`, `Alloc.room`: the values of data, and how many addresses they take
* `resettle`: how a renaming goes on when the next group is read
* `Interpreter.Ahead`: one interpreter is ahead of another one by what it has read
* `Interpreter.runData`: the values of data are made and have their turns

## Main results

* `Alloc.ofData_run`: the values of data are the same wherever their addresses start
* `Interpreter.Ahead.advance`: what the turns of the next group keep
-/

namespace GuardedLisp

open EvalM

/-! ## Values of data -/

theorem EvalM.alloc_run (make : Alloc α) (s : Store) :
    EvalM.alloc make s = .ok (make.run s.nextAddress).1
      { s with nextAddress := (make.run s.nextAddress).2 } := rfl

namespace Alloc

/-- The values of data. -/
def ofData (data : List Datum) : Alloc (List Value) := data.mapM ofDatum

/-- How many addresses the values of data take. -/
def room (data : List Datum) : Nat := ((ofData data).run 0).2

theorem mirrors_ofData (f : Renaming) (data : List Datum) :
    Mirrors f (List.map (Value.rename f)) (EvalM.alloc (ofData data))
      (EvalM.alloc (ofData (data.map (Datum.mapSymbols (Symbol.rename f))))) := by
  unfold ofData
  induction data with
  | nil => exact mirrors_pure (List.map (Value.rename f)) []
  | cons datum data ih =>
    simp only [List.map_cons, List.mapM_cons, alloc_bind, alloc_pure]
    refine mirrors_bind (mirrors_ofDatum datum) fun v => mirrors_bind ih fun vs => ?_
    exact mirrors_pure (List.map (Value.rename f)) (v :: vs)

/-- Wherever the addresses start, the values are the same with other addresses. -/
theorem ofData_run (f : Address → Address) (data : List Datum) (start next : Address)
    (moved : ∀ k < ((ofData data).run start).2 - start, f (start + k) = next + k) :
    (ofData data).run next = (((ofData data).run start).1.map (Value.rename f),
      next + (((ofData data).run start).2 - start)) := by
  have symbols : data.map (Datum.mapSymbols (Symbol.rename f)) = data := by
    have same : Datum.mapSymbols (Symbol.rename f) = id := funext Datum.mapSymbols_id
    rw [same, List.map_id]
  have mirrored := (mirrors_ofData f data).follows { nextAddress := start } next moved
  rw [symbols, alloc_run, alloc_run] at mirrored
  obtain ⟨values, stores⟩ := EStateM.Result.ok.inj mirrored
  exact Prod.ext values (congrArg Store.nextAddress stores)

theorem next_ofData (data : List Datum) (start : Address) :
    ((ofData data).run start).2 = start + room data :=
  congrArg Prod.snd (ofData_run (start + ·) data 0 start fun k _ => by rw [Nat.zero_add])

theorem ofData_rename {f : Address → Address} {data : List Datum} {start next : Address}
    (moved : ∀ k < room data, f (start + k) = next + k) :
    ((ofData data).run next).1 = ((ofData data).run start).1.map (Value.rename f) :=
  congrArg Prod.fst (ofData_run f data start next (by
    rwa [next_ofData, Nat.add_sub_cancel_left]))

theorem below_ofData (data : List Datum) (start : Address) :
    ∀ v ∈ ((ofData data).run start).1, v.Below (start + room data) := by
  intro v mem
  have fixed : ∀ k < room data, skipping (start + room data) (start + k) = start + k :=
    fun k small => skipping_of_lt (Nat.add_lt_add_left small start)
  have same : ((ofData data).run start).1.map id = _ :=
    (List.map_id _).trans (ofData_rename fixed)
  exact Value.below_of_rename_skipping (List.map_inj_left.mp same v mem).symm

theorem ofData_append (first second : List Datum) (start : Address) :
    ((ofData (first ++ second)).run start).1 =
      ((ofData first).run start).1 ++ ((ofData second).run (start + room first)).1 := by
  rw [← next_ofData, ofData, List.mapM_append]
  rfl

theorem room_append (first second : List Datum) :
    room (first ++ second) = room first + room second := by
  have total := next_ofData second (room first)
  rw [← total, room, ofData, List.mapM_append]
  rfl

end Alloc

/-! ## Reading ahead -/

/-- A renaming that goes on as `f` has begun: `count` addresses from `start` on are taken to those
from `block` on, and all addresses after them to those from `above` on. -/
def resettle (f : Nat → Nat) (start count block above a : Nat) : Nat :=
  if a < start then f a
  else if a < start + count then block + (a - start)
  else above + (a - (start + count))

section Resettle

variable {f : Nat → Nat} {start count block above : Nat}

theorem resettle_of_lt {a : Nat} (h : a < start) : resettle f start count block above a = f a :=
  if_pos h

theorem resettle_block {k : Nat} (h : k < count) :
    resettle f start count block above (start + k) = block + k := by
  grind [resettle]

theorem resettle_above (k : Nat) :
    resettle f start count block above (start + count + k) = above + k := by
  grind [resettle]

theorem injective_resettle (injective : Function.Injective f) (within : block + count ≤ above)
    (used : ∀ a < start, f a < above) (spared : ∀ a < start, f a < block ∨ block + count ≤ f a) :
    Function.Injective (resettle f start count block above) := by
  intro a b same
  by_cases inA : a < start <;> by_cases inB : b < start
  · rw [resettle_of_lt inA, resettle_of_lt inB] at same
    exact injective same
  all_goals grind [resettle]

end Resettle

namespace Interpreter

/-- The interpreter `j` has read ahead of `i`: what `i` has is in `j` under other addresses, and
`room` addresses from `block` on are set aside in `j`. -/
structure Ahead (f : Nat → Nat) (block room : Nat) (i j : Interpreter) : Prop where
  injective : Function.Injective f
  limit : j.limit = i.limit
  below : i.store.Below i.store.nextAddress
  store : j.store = i.store.rename f j.store.nextAddress
  next : j.store.nextAddress = i.store.nextAddress + room
  within : block + room ≤ j.store.nextAddress
  used : ∀ a < i.store.nextAddress, f a < j.store.nextAddress
  spared : ∀ a < i.store.nextAddress, f a < block ∨ block + room ≤ f a

/-- The values of data, and the interpreter that has made them. -/
def take (i : Interpreter) (data : List Datum) : List Value × Interpreter :=
  (((Alloc.ofData data).run i.store.nextAddress).1,
    { i with store :=
      { i.store with nextAddress := i.store.nextAddress + Alloc.room data } })

variable {β : Type} (turn : Turn β)

/-- The turns of the forms that data denote. -/
def runData (i : Interpreter) (data : List Datum) : List β × Interpreter :=
  (i.take data).2.turns turn (i.take data).1

theorem below_runData {i : Interpreter} (below : i.store.Below i.store.nextAddress)
    (data : List Datum) :
    (i.runData turn data).2.store.Below (i.runData turn data).2.store.nextAddress ∧
      ∀ b ∈ (i.runData turn data).1,
        turn.rename (skipping (i.runData turn data).2.store.nextAddress) b = b := by
  have kept := Store.below_mono (Nat.le_add_right i.store.nextAddress (Alloc.room data)) below
  exact below_turns turn (i.take data).2 (i.take data).1 ⟨kept.frames, kept.classes⟩
    (Alloc.below_ofData data i.store.nextAddress)

theorem nextAddress_le_runData (i : Interpreter) (data : List Datum) :
    i.store.nextAddress ≤ (i.runData turn data).2.store.nextAddress := by
  rw [runData, nextAddress_turns]
  exact Nat.le_trans (Nat.le_add_right ..) (Nat.le_add_right ..)

/-- An interpreter that makes the values of some data when they have their turns keeps behind one
that made them ahead. -/
theorem Ahead.advance {f : Nat → Nat} {block more : Nat} {i j : Interpreter} (data : List Datum)
    (ahead : Ahead f block (Alloc.room data + more) i j) :
    ∃ g : Nat → Nat, (∀ a < i.store.nextAddress, g a = f a) ∧
      Ahead g (block + Alloc.room data) more (i.runData turn data).2
        (j.turns turn ((Alloc.ofData data).run block).1).2 ∧
      (j.turns turn ((Alloc.ofData data).run block).1).1 =
        (i.runData turn data).1.map (turn.rename g) := by
  obtain ⟨injective, limit, below, store, next, within, used, spared⟩ := ahead
  set count := Alloc.room data
  set n := i.store.nextAddress
  set m := j.store.nextAddress
  set t := (i.take data).2
  set forms := (i.take data).1
  set g := resettle f n count block m
  have old : ∀ a < n, g a = f a := fun a small => resettle_of_lt small
  have injective' : Function.Injective g :=
    injective_resettle injective (by omega) used (by grind)
  -- The values that `i` makes now are those that were set aside.
  have made : ((Alloc.ofData data).run block).1 = forms.map (Value.rename g) :=
    Alloc.ofData_rename fun k small => resettle_block small
  have kept : j.store = (t.rename g m).store := by
    rw [store, ← Store.moving_congr old below]
    rfl
  have fresh : ∀ k, g (t.store.nextAddress + k) = m + k := resettle_above
  have ran := t.turns_rename turn (f := g) injective' forms m fun k _ => fresh k
  have same := turns_congr turn (i := t.rename g m) limit kept (forms.map (Value.rename g))
  rw [ran] at same
  have grown : (t.turns turn forms).2.store.nextAddress = n + count + t.taken turn forms :=
    t.nextAddress_turns turn forms
  have last : (j.turns turn (forms.map (Value.rename g))).2.store.nextAddress =
      m + t.taken turn forms := congrArg Store.nextAddress same.2
  rw [made]
  refine ⟨g, old, ⟨injective', ?_, (below_runData turn below data).1, ?_, ?_, ?_, ?_, ?_⟩, same.1⟩
  · rw [limit_turns, limit, runData, limit_turns]
    rfl
  · rw [last]
    exact same.2
  · rw [last, runData, grown, next]
    ac_rfl
  · rw [last, Nat.add_assoc]
    exact Nat.le_add_right_of_le within
  · rw [last, runData, grown]
    intro a small
    grind [resettle]
  · rw [runData, grown]
    intro a small
    grind [resettle]

end Interpreter

end GuardedLisp
