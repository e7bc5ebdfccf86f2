import GuardedLisp.Proofs.Reader.Lines
import GuardedLisp.Proofs.Renaming.Ahead

/-!
# Texts in turn

Some texts are read one after another, and the forms of each have their turns before the next text
is read.  If one text holds the forms of all of them, then it comes to the same to read it as a
whole: it does not matter whether forms are read ahead.

The two runs call what they make by different addresses, since reading takes addresses too.  The
renaming between them is injective and leaves alone what was there before.

## Main definitions

* `Interpreter.runWith`, `Interpreter.runEach`: one text, and texts one after another

## Main results

* `Interpreter.below_fresh`, `Interpreter.below_runWith`: an interpreter holds no address that has
  not been taken
* `Interpreter.runWith_of_readInTurn`: it does not matter whether forms are read ahead
-/

namespace GuardedLisp

open Reader (ReadInTurn)

namespace Interpreter

variable {β : Type} (turn : Turn β)

/-- Reads a text, and its forms have their turns. -/
def runWith (i : Interpreter) (source : String) : Except Error (List β) × Interpreter :=
  match i.readAll source with
  | (.ok forms, i) => (.ok (i.turns turn forms).1, (i.turns turn forms).2)
  | (.error e, i) => (.error e, i)

/-- Reads texts one after another. -/
def runEach (i : Interpreter) : List String → List (Except Error (List β)) × Interpreter
  | [] => ([], i)
  | source :: sources =>
    let first := i.runWith turn source
    let rest := runEach first.2 sources
    (first.1 :: rest.1, rest.2)

theorem runWith_eq {i : Interpreter} {source : String} {data : List Datum}
    {symbols : SymbolTable} (read : Reader.readAll source i.symbols = (.ok data, symbols)) :
    i.runWith turn source =
      (.ok ({ i with symbols }.runData turn data).1, ({ i with symbols }.runData turn data).2) := by
  have made : i.readAll source =
      (.ok ({ i with symbols }.take data).1, ({ i with symbols }.take data).2) := by
    rw [take, ← Alloc.next_ofData, readAll, read]
    rfl
  rw [runWith, made]
  rfl

/-! ## Addresses that have been taken -/

/-- A fresh interpreter holds no address that has not been taken. -/
theorem below_fresh (limit : Nat) :
    (fresh limit).store.Below (fresh limit).store.nextAddress :=
  have same : Store.initial.rename (skipping 0) 0 = Store.initial := by decide +kernel
  Store.below_of_rename_skipping same

/-- Running a text keeps it so. -/
theorem below_runWith {i : Interpreter} (below : i.store.Below i.store.nextAddress)
    (source : String) :
    (i.runWith turn source).2.store.Below (i.runWith turn source).2.store.nextAddress := by
  cases read : Reader.readAll source i.symbols with
  | mk outcome symbols =>
    cases outcome with
    | ok data =>
      rw [runWith_eq turn read]
      exact (below_runData turn (i := { i with symbols }) below data).1
    | error report =>
      simp only [runWith, readAll, read, accept]
      exact below

/-! ## Reading ahead -/

/-- What is ahead stays ahead until all texts have been run. -/
theorem Ahead.run {sources : List String} {groups : List (List Datum)} {f : Nat → Nat}
    {block : Nat} {i j : Interpreter} {symbols : SymbolTable}
    (read : ReadInTurn i.symbols sources groups symbols)
    (ahead : Ahead f block (Alloc.room groups.flatten) i j) :
    ∃ (g : Nat → Nat) (made : List (List β)),
      (∀ a < i.store.nextAddress, g a = f a) ∧
      Ahead g (block + Alloc.room groups.flatten) 0 (i.runEach turn sources).2
        (j.turns turn ((Alloc.ofData groups.flatten).run block).1).2 ∧
      (i.runEach turn sources).1 = made.map .ok ∧
      (j.turns turn ((Alloc.ofData groups.flatten).run block).1).1 =
        made.flatten.map (turn.rename g) ∧
      (i.runEach turn sources).2.symbols = symbols := by
  generalize known : i.symbols = before at read
  induction read generalizing f block i j with
  | nil => exact ⟨f, [], fun _ _ => rfl, ahead, rfl, rfl, known⟩
  | @cons _ between _ source sources data groups first rest ih =>
    subst known
    rw [List.flatten_cons, Alloc.room_append] at ahead
    rw [List.flatten_cons, Alloc.ofData_append, turns_append, Alloc.room_append, ← Nat.add_assoc]
    have ran := runWith_eq turn first
    set t : Interpreter := { i with symbols := between } with t_def
    have ahead : Ahead f block (Alloc.room data + Alloc.room groups.flatten) t j :=
      ⟨ahead.injective, ahead.limit, ahead.below, ahead.store, ahead.next, ahead.within,
        ahead.used, ahead.spared⟩
    have known := (below_runData turn ahead.below data).2
    obtain ⟨g, old, ahead', here⟩ := ahead.advance turn data
    obtain ⟨h, made, kept, done, each, there, symbols⟩ :=
      ih ahead' (symbols_turns turn (t.take data).2 (t.take data).1)
    refine ⟨h, (t.runData turn data).1 :: made, ?_, ?_, ?_, ?_, ?_⟩
    · intro a small
      rw [kept a (Nat.lt_of_lt_of_le small (nextAddress_le_runData turn t data)), old a small]
    · simp only [runEach, ran]
      exact done
    · simp only [runEach, ran, each, List.map_cons]
    · rw [here, there, List.flatten_cons, List.map_append]
      refine congrArg (· ++ _) (List.map_congr_left fun b mem => ?_)
      -- What has been made holds no address that is renamed later on.
      exact (turn.rename_congr (known b mem) kept).symm
    · simp only [runEach, ran]
      exact symbols

/-- **It does not matter whether forms are read ahead.**  A text that holds the same forms as some
texts together comes to the same as these do one after another, up to the addresses of what is made
on the way. -/
theorem runWith_of_readInTurn {i : Interpreter} {source : String} {sources : List String}
    {groups : List (List Datum)} {symbols : SymbolTable}
    (below : i.store.Below i.store.nextAddress)
    (whole : Reader.readAll source i.symbols = (.ok groups.flatten, symbols))
    (read : ReadInTurn i.symbols sources groups symbols) :
    ∃ (g : Address → Address) (made : List (List β)),
      Function.Injective g ∧ (∀ a < i.store.nextAddress, g a = a) ∧
      (i.runEach turn sources).1 = made.map .ok ∧
      i.runWith turn source = (.ok (made.flatten.map (turn.rename g)),
        (i.runEach turn sources).2.rename g (i.runEach turn sources).2.store.nextAddress) := by
  set n := i.store.nextAddress
  set count := Alloc.room groups.flatten
  set j := ({ i with symbols }.take groups.flatten).2 with j_def
  have old : ∀ a < n, resettle id n 0 n (n + count) a = a := fun a small => resettle_of_lt small
  -- At the start nothing has another address, and those of all forms are set aside.
  have ahead : Ahead (resettle id n 0 n (n + count)) n count i j := {
    injective := injective_resettle Function.injective_id (by omega) (by grind) (by grind)
    limit := rfl
    below := below
    store := by rw [Store.moving_eq_self old below]; rfl
    next := rfl
    within := Nat.le_refl _
    used := by
      intro a small
      rw [old a small]
      exact Nat.lt_add_right count small
    spared := fun a small => .inl ((old a small).symm ▸ small) }
  obtain ⟨g, made, kept, done, each, there, last⟩ := ahead.run turn read
  refine ⟨g, made, done.injective, fun a small => (kept a small).trans (old a small), each, ?_⟩
  have stores := done.store
  rw [done.next, Nat.add_zero] at stores
  rw [runWith_eq turn whole, runData]
  refine Prod.ext (congrArg Except.ok there) (eq_rename ?_ stores done.limit)
  rw [symbols_turns, last]
  rfl

end Interpreter

end GuardedLisp
