import GuardedLisp.Proofs.Reader.Extension
import GuardedLisp.Proofs.Renaming.Number

/-!
# Texts that are rejected

A text with a fault in it is rejected before anything is evaluated, though the symbols that have
been met before the fault are in the table by then.  So symbols that are met later have other
numbers than they would have had.  That makes no difference to any later text: all that an
interpreter makes of texts is the same but for the numbers of symbols, and values are shown without
these.

## Main definitions

* `Interpreter.Numbered`: all symbols in the store have numbers that are in use
* `Interpreter.Reachable`: what may become of an interpreter

## Main results

* `Interpreter.Reachable.numbered`: symbols have numbers that are in use
* `Interpreter.serveAll_of_rejected`: a rejected text makes no difference to later ones
-/

namespace GuardedLisp

/-- The numbers that are not in use are moved, so that the first one of them is left out. -/
def SymbolTable.sparing (table : SymbolTable) : Renumbering table table where
  number := skipping table.size
  number_injective := injective_skipping table.size
  number_keyword {s} keyword := by
    have within := Registry.id_lt (table.keywords_prefix.subset keyword)
    exact skipping_of_lt (by rwa [table.size_eq])
  mem_symbols s mem := by
    have within := Registry.id_lt mem
    rw [← table.size_eq] at within
    have same : s = ⟨skipping table.size s.id, s.name⟩ :=
      Symbol.ext (skipping_of_lt within).symm rfl
    rwa [same] at mem

namespace Interpreter

/-! ## Numbers in use -/

/-- All symbols in the store have numbers that are in use. -/
def Numbered (i : Interpreter) : Prop := i.store.Within (fun _ => True) (· < i.symbols.size)

/-- What may become of an interpreter.  It takes texts, reads texts without evaluating them,
evaluates terms whose symbols it knows, interns texts, and its output is taken out. -/
inductive Reachable : Interpreter → Prop
  | fresh (limit : Nat) : Reachable (fresh limit)
  | serve {i : Interpreter} (driver : Driver) (source : String) :
      Reachable i → Reachable (i.serve driver source).2
  | readAll {i : Interpreter} (source : String) : Reachable i → Reachable (i.readAll source).2
  | eval {i : Interpreter} {form : Value} :
      form.Within (fun _ => True) (· < i.symbols.size) → Reachable i → Reachable (i.eval form).2
  | intern {i : Interpreter} (name : String) : Reachable i → Reachable (i.intern name).2
  | takeOutput {i : Interpreter} : Reachable i → Reachable i.takeOutput.2

variable {i : Interpreter} {names : List String}

/-- A renaming that leaves the numbers in use alone leaves an interpreter alone. -/
theorem Numbered.renumber_eq_self (numbered : i.Numbered) {f : Renaming}
    (addresses : f.address = id) (numbers : ∀ n < i.symbols.size, f.number n = n)
    (table : SymbolTable) :
    i.renumber f table = i.knowing table := by
  have still (a : Address) : True → f.address a = a := fun _ => by rw [addresses, id]
  rw [renumber, Store.rename_eq_self still numbers numbered]
  rfl

/-- A store that has no number that moves if those not in use do has numbers in use only. -/
theorem within_of_sparing {table : SymbolTable} {s : Store} {next : Address}
    (same : s.rename table.sparing next = s) : s.Within (fun _ => True) (· < table.size) :=
  Store.within_mono (fun _ _ => trivial) (fun _ => lt_of_skipping_eq) (Store.within_of_rename same)

/-- What comes to the same if numbers that are not in use are others brings in no such number. -/
theorem Numbered.of_brings (numbered : i.Numbered) {α : Type} {r : α → α}
    {op : Interpreter → α × Interpreter}
    (brings : Brings (i.symbols.insertAll names).sparing names r op op) : (op i).2.Numbered := by
  have grown := (i.symbols.prefix_insertAll names).length_le
  rw [← SymbolTable.size_eq, ← SymbolTable.size_eq] at grown
  have still : i.renumber (i.symbols.insertAll names).sparing i.symbols = i :=
    numbered.renumber_eq_self rfl (fun _ small => skipping_of_lt (Nat.lt_of_lt_of_le small grown)) _
  have ran := brings.follows i i.symbols List.prefix_rfl List.prefix_rfl
  rw [still] at ran
  have stores := congrArg (fun ran => ran.2.store) ran
  rw [Numbered, brings.symbols i]
  exact within_of_sparing stores.symm

theorem numbered_fresh (limit : Nat) : (fresh limit).Numbered := by
  have same : Store.initial.rename SymbolTable.global.sparing 0 = Store.initial := by
    decide +kernel
  exact within_of_sparing same

/-- **Symbols have numbers that are in use**, whatever has become of an interpreter. -/
theorem Reachable.numbered (reachable : i.Reachable) : i.Numbered := by
  induction reachable with
  | fresh limit => exact numbered_fresh limit
  | serve driver source _ numbered => exact numbered.of_brings (brings_serve driver source)
  | readAll source _ numbered => exact numbered.of_brings (brings_readAll source)
  | @eval i form within _ numbered =>
    have brings := brings_eval (f := (i.symbols.insertAll []).sparing) form
    rw [Value.rename_eq_self (fun _ _ => rfl) (fun _ => skipping_of_lt) within] at brings
    exact numbered.of_brings brings
  | @intern i name _ numbered =>
    have grown := (i.symbols.prefix_insert name).length_le
    rw [← SymbolTable.size_eq, ← SymbolTable.size_eq] at grown
    exact Store.within_mono (fun _ => id) (fun _ small => Nat.lt_of_lt_of_le small grown) numbered
  | takeOutput _ numbered => exact ⟨numbered.frames, numbered.classes⟩

/-! ## Texts that are rejected -/

variable {source : String} {report : ParseError} {known : SymbolTable}

theorem insertAll_of_rejected
    (rejected : Reader.readAll source i.symbols = (.error report, known)) :
    known = i.symbols.insertAll (Reader.met .all source) := by
  have read := Reader.symbols_read .all source i.symbols
  rw [show Reader.read .all source i.symbols = _ from rejected] at read
  exact read

/-- A text that is rejected changes the symbol table and nothing else. -/
theorem serve_of_rejected (rejected : Reader.readAll source i.symbols = (.error report, known))
    (driver : Driver) :
    i.serve driver source = (⟨.error (.parse report), i.store.output⟩, i.knowing known) := by
  have read : i.readAll source = (.error (.parse report), i.knowing known) := by
    rw [readAll, rejected]
    rfl
  cases driver with
  | eval =>
    simp only [serve, evalSource, read]
    rfl
  | run =>
    simp only [serve, runSource, read]
    rfl
  | load =>
    simp only [serve, loadSource, read]
    rfl

/-- **A text that is rejected has no effect on later ones.**  Whatever has become of the interpreter
so far, the text is answered with its fault and prints nothing, whichever way it is taken.  Texts
that are taken after it, each in any way, come to the same values and errors as without it, as far
as these are shown, and print the same.

There is a renaming between what is made on the way with the rejected text and without it.  It gives
symbols other numbers, each that of the same text in the other table, and leaves addresses and the
numbers from before alone.  In the end the stores are the same under the renaming, so that they
differ in nothing but the numbers of symbols, the limit is the same, and the symbol table is what it
is without the rejected text, but for the texts that were met in it and come before those that are
met later. -/
theorem serveAll_of_rejected (reachable : i.Reachable)
    (rejected : Reader.readAll source i.symbols = (.error report, known))
    (driver : Driver) (script : List (Driver × String)) :
    i.serve driver source = (⟨.error (.parse report), i.store.output⟩, i.knowing known) ∧
      ((i.knowing known).serveAll script).1.map Observation.shown =
        (i.serveAll script).1.map Observation.shown ∧
      ∃ (met later : List String)
        (f : Renumbering (i.symbols.insertAll later) (known.insertAll later)),
        known = i.symbols.insertAll met ∧
        (i.serveAll script).2.symbols = i.symbols.insertAll later ∧
        (∀ n < i.symbols.size, f.number n = n) ∧
        (i.knowing known).serveAll script =
          ((i.serveAll script).1.map (Observation.map (Value.rename f)),
            (i.serveAll script).2.renumber f (known.insertAll later)) := by
  have table := insertAll_of_rejected rejected
  set later := script.flatMap fun request => Reader.met .all request.2
  have sub : (i.symbols.insertAll later).names ⊆ (known.insertAll later).names := by
    intro name mem
    rw [SymbolTable.mem_names_insertAll] at mem ⊢
    refine mem.imp_left fun early => ?_
    rw [table, SymbolTable.mem_names_insertAll]
    exact .inl early
  have early : i.symbols.symbols <+: (known.insertAll later).symbols := by
    rw [table]
    exact (SymbolTable.prefix_insertAll ..).trans (SymbolTable.prefix_insertAll ..)
  have fixed : ∀ n < i.symbols.size, (SymbolTable.renumbering sub).number n = n := fun n =>
    SymbolTable.number_renumbering sub (SymbolTable.prefix_insertAll ..) early
  have ran := (brings_serveAll (f := SymbolTable.renumbering sub) script).follows i known
    List.prefix_rfl List.prefix_rfl
  rw [reachable.numbered.renumber_eq_self rfl fixed] at ran
  refine ⟨serve_of_rejected rejected driver, ?_, _, later, SymbolTable.renumbering sub, table,
    (brings_serveAll (f := SymbolTable.renumbering sub) script).symbols i, fixed, ran⟩
  rw [ran, List.map_map]
  refine List.map_congr_left fun seen _ => (Observation.map_map ..).trans ?_
  exact congrArg (Observation.map · seen) (funext (Value.text_rename _))

/-- A list that is not closed is rejected by a fresh interpreter once its symbol has been met, and
what is defined, printed and missing later is the same. -/
theorem serveAll_after_openList :
    ∃ report known,
      Reader.readAll "(zap " (fresh 128).symbols = (.error report, known) ∧
      known.size = (fresh 128).symbols.size + 1 ∧
      ((fresh 128).serve .load "(zap ").2 = (fresh 128).knowing known ∧
      (((fresh 128).knowing known).serveAll
          [(.eval, "(define x 1)"), (.run, "(display x) zap"), (.load, ")")]).1.map
            Observation.shown =
        ((fresh 128).serveAll
          [(.eval, "(define x 1)"), (.run, "(display x) zap"), (.load, ")")]).1.map
            Observation.shown := by
  have fails : Reader.Fails "(zap " (fresh 128).symbols ⟨.endOfText, 5⟩ :=
    Reader.fails_iff.mpr (by decide +kernel)
  have rejected := Reader.readAll_of_fails fails
  have grown : (Reader.scan .all "(zap ".toList (fresh 128).symbols).symbols.size =
      (fresh 128).symbols.size + 1 := by
    decide +kernel
  obtain ⟨served, same, -⟩ := serveAll_of_rejected (.fresh 128) rejected .load
    [(.eval, "(define x 1)"), (.run, "(display x) zap"), (.load, ")")]
  exact ⟨_, _, rejected, grown, by rw [served], same⟩

end Interpreter

end GuardedLisp
