import GuardedLisp.Proofs.Drivers
import GuardedLisp.Proofs.Reader.Written
import GuardedLisp.Proofs.Renaming.Ahead

/-!
# Interpreters that number symbols otherwise

The numbers of symbols depend on all texts that have been met, whether they could be read or not.
So one interpreter may number symbols as another one does, but for some that it has met in another
order or at another time.  There is a renaming between the two, and whatever texts both take, they
answer and print the same under it and stay alike.

## Main definitions

* `Renumbering`: a renaming of symbols by which those of one table become those of another one
* `SymbolTable.renumbering`: there is one if all texts of the first table are known to the second
* `SymbolTable.own`: the symbol that a table has for the text of another one
* `Interpreter.renumber`: the same interpreter with its symbols renamed, and with another table
* `Interpreter.Brings`: two operations bring given texts into the table, and do the same but for the
  numbers of symbols

## Main results

* `Reader.read_renumber`: what is read is the same but for these numbers
* `Interpreter.brings_perform`: so is what comes of a computation that does the same
* `Interpreter.brings_serve`, `Interpreter.brings_serveAll`: so is what comes of texts
-/

namespace GuardedLisp

/-! ## Data with other symbols -/

namespace Datum

theorem mapSymbols_mapSymbols (g f : Symbol → Symbol) (d : Datum) :
    (d.mapSymbols f).mapSymbols g = d.mapSymbols (g ∘ f) := by
  induction d with
  | pair first rest ihFirst ihRest => simp only [mapSymbols, ihFirst, ihRest]
  | _ => rfl

theorem mapSymbols_congr {f g : Symbol → Symbol} {d : Datum} (agree : ∀ s ∈ d.symbols, f s = g s) :
    d.mapSymbols f = d.mapSymbols g := by
  induction d with
  | pair first rest ihFirst ihRest =>
    rw [symbols, List.forall_mem_append] at agree
    simp only [mapSymbols, ihFirst agree.1, ihRest agree.2]
  | symbol name => simp only [mapSymbols, agree name (List.mem_singleton_self _)]
  | _ => rfl

end Datum

/-! ## Renumberings -/

/-- Other numbers for symbols, by which those of one table become symbols of another one. -/
structure Renumbering (known other : SymbolTable) where
  number : Nat → Nat
  /-- No two symbols become the same. -/
  number_injective : Function.Injective number
  /-- Keywords stay as they are. -/
  number_keyword {s : Symbol} : s ∈ Symbol.keywords → number s.id = s.id
  /-- Symbols of the first table become symbols of the second one. -/
  mem_symbols : ∀ s ∈ known.symbols, ⟨number s.id, s.name⟩ ∈ other.symbols

/-- Addresses stay as they are. -/
def Renumbering.toRenaming {known other : SymbolTable} (f : Renumbering known other) :
    Renaming where
  address := id
  number := f.number
  number_injective := f.number_injective
  number_keyword := f.number_keyword

instance {known other : SymbolTable} : CoeOut (Renumbering known other) Renaming :=
  ⟨Renumbering.toRenaming⟩

namespace SymbolTable

variable {table known other : SymbolTable} {s : Symbol}

/-- The number in another table of the text that has a number here.  A number that is not in use
here becomes one that is not in use there. -/
def renumber (known other : SymbolTable) (n : Nat) : Nat :=
  match known.names[n]? with
  | some name => (other.intern name).1.id
  | none => other.size + (n - known.size)

theorem getElem?_names_id (mem : s ∈ known.symbols) : known.names[s.id]? = some s.name := by
  rw [names, List.getElem?_map, Registry.getElem?_id mem, Option.map_some]

theorem intern_of_mem (mem : s ∈ known.symbols) : known.intern s.name = (s, known) :=
  intern_of_some (get?_eq_some_iff.mpr ⟨mem, rfl⟩)

theorem renumber_id (mem : s ∈ known.symbols) {t : Symbol} (mem' : t ∈ other.symbols)
    (same : t.name = s.name) : known.renumber other s.id = t.id := by
  simp only [renumber, getElem?_names_id mem, ← same, intern_of_mem mem']

/-- A number in use is that of a symbol. -/
theorem exists_id_eq {n : Nat} (small : n < known.size) : ∃ s ∈ known.symbols, s.id = n := by
  have mem : n ∈ known.symbols.map Symbol.id := by
    rw [known.numbered]
    exact List.mem_range.mpr small
  exact List.mem_map.mp mem

theorem injective_renumber (sub : known.names ⊆ other.names) :
    Function.Injective (known.renumber other) := by
  have inUse {n : Nat} (small : n < known.size) : ∃ s ∈ known.symbols, ∃ t ∈ other.symbols,
      s.id = n ∧ t.name = s.name ∧ known.renumber other n = t.id := by
    obtain ⟨s, mem, rfl⟩ := exists_id_eq small
    obtain ⟨t, mem', same⟩ := List.mem_map.mp (sub (List.mem_map_of_mem mem))
    exact ⟨s, mem, t, mem', rfl, same, renumber_id mem mem' same⟩
  have unused {n : Nat} (large : ¬ n < known.size) :
      known.renumber other n = other.size + (n - known.size) := by
    have absent : known.names[n]? = none := by
      rw [List.getElem?_eq_none_iff, names, List.length_map, ← size_eq]
      exact Nat.not_lt.mp large
    rw [renumber, absent]
  intro m n same
  by_cases first : m < known.size <;> by_cases second : n < known.size
  · obtain ⟨s, mem, t, mem', rfl, name, number⟩ := inUse first
    obtain ⟨s', known', t', other', rfl, name', number'⟩ := inUse second
    have texts : t = t' := eq_of_id mem' other' (number.symm.trans (same.trans number'))
    exact congrArg Symbol.id (eq_of_name mem known' (name.symm.trans (texts ▸ name')))
  · obtain ⟨s, -, t, mem', -, -, number⟩ := inUse first
    have within := Registry.id_lt mem'
    rw [← size_eq] at within
    rw [number, unused second] at same
    omega
  · obtain ⟨s, -, t, mem', -, -, number⟩ := inUse second
    have within := Registry.id_lt mem'
    rw [← size_eq] at within
    rw [number, unused first] at same
    omega
  · rw [unused first, unused second] at same
    omega

/-- The numbers of one table become those that another one has for the same texts. -/
def renumbering (sub : known.names ⊆ other.names) : Renumbering known other where
  number := known.renumber other
  number_injective := injective_renumber sub
  number_keyword {s} keyword :=
    renumber_id (known.keywords_prefix.subset keyword) (other.keywords_prefix.subset keyword) rfl
  mem_symbols s mem := by
    obtain ⟨t, mem', same⟩ := List.mem_map.mp (sub (List.mem_map_of_mem mem))
    have renamed : t = ⟨known.renumber other s.id, s.name⟩ :=
      Symbol.ext (renumber_id mem mem' same).symm same
    rwa [renamed] at mem'

/-- Numbers stay as they are if they have been in use before the two tables parted. -/
theorem number_renumbering (sub : known.names ⊆ other.names)
    (here : table.symbols <+: known.symbols) (there : table.symbols <+: other.symbols) {n : Nat}
    (small : n < table.size) :
    (renumbering sub).number n = n := by
  obtain ⟨s, mem, rfl⟩ := exists_id_eq small
  exact renumber_id (here.subset mem) (there.subset mem) rfl

end SymbolTable

/-! ## What is read -/

section

variable {known other : SymbolTable} (f : Renumbering known other)

/-- The symbol that a table has for the text of another one. -/
def SymbolTable.own (table : SymbolTable) (s : Symbol) : Symbol := (table.intern s.name).1

theorem Datum.mapSymbols_own {table : SymbolTable} {d : Datum} (inTable : d.Known table) :
    d.mapSymbols table.own = d := by
  refine (mapSymbols_congr fun s mem => ?_).trans d.mapSymbols_id
  exact congrArg Prod.fst (SymbolTable.intern_of_mem (inTable s mem))

/-- Only the texts of symbols matter. -/
theorem Datum.mapSymbols_own_bare (table : SymbolTable) (d : Datum) :
    (d.mapSymbols fun s => Reader.bare s.name).mapSymbols table.own = d.mapSymbols table.own := by
  refine (mapSymbols_mapSymbols ..).trans (mapSymbols_congr fun s _ => ?_)
  exact congrArg (fun name => (table.intern name).1) (Reader.name_bare s.name)

/-- The symbol that the other table has for a text is the renamed one. -/
theorem Renumbering.mapSymbols_own {d : Datum} (inTable : d.Known known) :
    d.mapSymbols other.own = d.mapSymbols (Symbol.rename f) :=
  Datum.mapSymbols_congr fun s mem =>
    congrArg Prod.fst (SymbolTable.intern_of_mem (f.mem_symbols s (inTable s mem)))

/-- Forms with the same texts are the same but for the numbers of symbols. -/
theorem Renumbering.forms_eq {forms forms' : List Datum}
    (same : forms'.map (Datum.mapSymbols fun s => Reader.bare s.name) =
      forms.map (Datum.mapSymbols fun s => Reader.bare s.name))
    (here : ∀ d ∈ forms, d.Known known) (there : ∀ d ∈ forms', d.Known other) :
    forms' = forms.map (Datum.mapSymbols (Symbol.rename f)) := by
  have texts (forms : List Datum) :
      (forms.map (Datum.mapSymbols fun s => Reader.bare s.name)).map
        (Datum.mapSymbols other.own) = forms.map (Datum.mapSymbols other.own) := by
    rw [List.map_map]
    exact List.map_congr_left fun d _ => d.mapSymbols_own_bare other
  calc forms'
      = forms'.map (Datum.mapSymbols other.own) :=
        ((List.map_congr_left fun d mem => Datum.mapSymbols_own (there d mem)).trans
          forms'.map_id).symm
    _ = forms.map (Datum.mapSymbols other.own) := by rw [← texts forms', same, texts]
    _ = forms.map (Datum.mapSymbols (Symbol.rename f)) :=
        List.map_congr_left fun d mem => f.mapSymbols_own (here d mem)

/-- **What is read is the same but for the numbers of symbols**, whatever table there is. -/
theorem Reader.read_renumber (goal : Goal) (source : String) {table table' : SymbolTable}
    (here : (table.insertAll (met goal source)).symbols <+: known.symbols)
    (there : (table'.insertAll (met goal source)).symbols <+: other.symbols) :
    (read goal source table').1 =
      (read goal source table).1.map (List.map (Datum.mapSymbols (Symbol.rename f))) := by
  have bare := (bare_read goal source table').trans (bare_read goal source table).symm
  rw [← symbols_read] at here there
  rcases first : read goal source table with ⟨outcome, later⟩
  rcases second : read goal source table' with ⟨outcome', later'⟩
  rw [first] at here
  rw [second] at there
  rw [first, second] at bare
  cases outcome with
  | error report =>
    cases outcome' with
    | error report' => exact bare
    | ok forms' => cases bare
  | ok forms =>
    cases outcome' with
    | error report' => cases bare
    | ok forms' =>
      refine congrArg Except.ok (f.forms_eq (Except.ok.inj bare) (fun d mem s symbol => ?_)
        fun d mem s symbol => ?_)
      · exact here.subset ((fits_of_read first d mem).known s symbol)
      · exact there.subset ((fits_of_read second d mem).known s symbol)

end

/-! ## Interpreters -/

/-- A report with its value renamed. -/
def LoadReport.rename (f : Renaming) (report : LoadReport) : LoadReport :=
  { report with last := report.last.map (Value.rename f) }

theorem LoadReport.add_rename (f : Renaming) (report : LoadReport) (form : Value)
    (outcome : Except Error Value) :
    (report.rename f).add (form.rename f) (renameOutcome f outcome) =
      (report.add form outcome).rename f := by
  cases outcome with
  | ok value => rfl
  | error e => simp only [renameOutcome, Except.map, add, Value.text_rename, rename]

theorem Answer.ofReport_rename (f : Renaming) (r : LoadReport) :
    ofReport (r.rename f) = (ofReport r).map (Value.rename f) := rfl

namespace Interpreter

/-- The same interpreter with its symbols renamed, and with another table. -/
def renumber (f : Renaming) (table : SymbolTable) (i : Interpreter) : Interpreter :=
  { symbols := table, store := i.store.rename f i.store.nextAddress, limit := i.limit }

variable {known other : SymbolTable} {f : Renumbering known other} {α β γ δ : Type}
  {names more : List String}

/-- Two operations bring given texts into the table.  Where symbols are numbered as in `other`, the
second one does what the first one does where they are numbered as in `known`, as long as the tables
do not outgrow these. -/
structure Brings (f : Renumbering known other) (names : List String) (r : α → β)
    (op : Interpreter → α × Interpreter) (op' : Interpreter → β × Interpreter) : Prop where
  symbols (i : Interpreter) : (op i).2.symbols = i.symbols.insertAll names
  follows (i : Interpreter) (table : SymbolTable) :
    (i.symbols.insertAll names).symbols <+: known.symbols →
    (table.insertAll names).symbols <+: other.symbols →
      op' (i.renumber f table) = (r (op i).1, (op i).2.renumber f (table.insertAll names))

/-- One operation after another. -/
theorem Brings.bind {r : α → β} {q : γ → δ} {op : Interpreter → α × Interpreter}
    {op' : Interpreter → β × Interpreter} (first : Brings f names r op op')
    (next : α → Interpreter → γ × Interpreter) (next' : β → Interpreter → δ × Interpreter)
    (later : ∀ a, Brings f more q (next a) (next' (r a))) :
    Brings f (names ++ more) q (fun i => next (op i).1 (op i).2)
      fun i => next' (op' i).1 (op' i).2 where
  symbols i := by
    rw [(later _).symbols, first.symbols, SymbolTable.insertAll_append]
  follows i table here there := by
    rw [SymbolTable.insertAll_append] at here there ⊢
    have begun := first.follows i table ((SymbolTable.prefix_insertAll ..).trans here)
      ((SymbolTable.prefix_insertAll ..).trans there)
    rw [← first.symbols] at here
    simp only [begun, (later (op i).1).follows (op i).2 _ here there]

theorem Brings.map {r : α → β} {q : γ → δ} {op : Interpreter → α × Interpreter}
    {op' : Interpreter → β × Interpreter} (brings : Brings f names r op op') {g : α → γ} {h : β → δ}
    (same : ∀ a, h (r a) = q (g a)) :
    Brings f names q (fun i => (g (op i).1, (op i).2)) fun i => (h (op' i).1, (op' i).2) where
  symbols i := brings.symbols i
  follows i table here there := by simp only [brings.follows i table here there, same]

theorem brings_pure (r : α → β) (a : α) :
    Brings f [] r (fun i => (a, i)) fun i => (r a, i) :=
  ⟨fun _ => rfl, fun _ _ _ _ => rfl⟩

/-- What follows a success, and brings in nothing more. -/
theorem Brings.andThen {r : α → β} {q : γ → δ} {op : Interpreter → Except Error α × Interpreter}
    {op' : Interpreter → Except Error β × Interpreter}
    {next : α → Interpreter → Except Error γ × Interpreter}
    {next' : β → Interpreter → Except Error δ × Interpreter}
    (first : Brings f names (Except.map r) op op')
    (later : ∀ a, Brings f [] (Except.map q) (next a) (next' (r a))) :
    Brings f names (Except.map q) (fun i => andThen (op i) next)
      fun i => andThen (op' i) next' where
  symbols i := by
    have begun := first.symbols i
    show (Interpreter.andThen (op i) next).2.symbols = _
    generalize op i = ran at begun ⊢
    obtain ⟨outcome, j⟩ := ran
    cases outcome with
    | ok a => exact ((later a).symbols j).trans begun
    | error e => exact begun
  follows i table here there := by
    have begun := first.follows i table here there
    rw [← first.symbols] at here
    show Interpreter.andThen (op' (i.renumber f table)) next' =
      ((Interpreter.andThen (op i) next).1.map q,
        (Interpreter.andThen (op i) next).2.renumber f (table.insertAll names))
    rw [begun]
    generalize op i = ran at here ⊢
    obtain ⟨outcome, j⟩ := ran
    cases outcome with
    | ok a => exact (later a).follows j _ here there
    | error e => rfl

/-- **What comes of a computation that does the same is the same** but for the numbers of
symbols. -/
theorem brings_perform {r : α → β} {x : EvalM α} {y : EvalM β} (mirrors : EvalM.Mirrors f r x y) :
    Brings f [] (Except.map r) (·.perform x) (·.perform y) where
  symbols i := by
    simp only [perform]
    cases x i.store <;> rfl
  follows i table _ _ := by
    have ran := mirrors.follows i.store i.store.nextAddress fun _ _ => rfl
    have grown : i.store.nextAddress + x.taken i.store = (x.after i.store).nextAddress :=
      Nat.add_sub_of_le (mirrors.grows i.store)
    rw [grown] at ran
    simp only [renumber, perform, ran, EvalM.after]
    cases x i.store <;> rfl

theorem brings_eval (form : Value) :
    Brings f [] (renameOutcome f) (·.eval form) (·.eval (form.rename f)) := by
  have each (limit : Nat) := brings_perform
    (Context.mirrors_eval (f := f) Function.injective_id { limit } globalScope form)
  exact ⟨fun i => (each i.limit).symbols i, fun i => (each i.limit).follows i⟩

theorem brings_evalForms (last : Value) (forms : List Value) :
    Brings f [] (renameOutcome f) (·.evalForms last forms)
      (·.evalForms (last.rename f) (forms.map (Value.rename f))) := by
  induction forms generalizing last with
  | nil => exact brings_pure (renameOutcome f) (.ok last)
  | cons form forms ih =>
    simp only [List.map_cons, evalForms_cons]
    exact (brings_eval form).andThen ih

theorem brings_runForms (forms : List Value) :
    Brings f [] (List.map (renameOutcome f)) (·.runForms forms)
      (·.runForms (forms.map (Value.rename f))) := by
  induction forms with
  | nil => exact brings_pure (List.map (renameOutcome f)) []
  | cons form forms ih =>
    exact (brings_eval form).bind
      (fun outcome i => (outcome :: (i.runForms forms).1, (i.runForms forms).2))
      (fun outcome i => (outcome :: (i.runForms (forms.map (Value.rename f))).1,
        (i.runForms (forms.map (Value.rename f))).2)) fun outcome => ih.map fun _ => rfl

theorem brings_loadForms (report : LoadReport) (forms : List Value) :
    Brings f [] (LoadReport.rename f) (·.loadForms report forms)
      (·.loadForms (report.rename f) (forms.map (Value.rename f))) := by
  induction forms generalizing report with
  | nil => exact brings_pure (LoadReport.rename f) report
  | cons form forms ih =>
    refine (brings_eval form).bind
      (fun outcome i => i.loadForms (report.add form outcome) forms)
      (fun outcome i => i.loadForms ((report.rename f).add (form.rename f) outcome)
        (forms.map (Value.rename f))) fun outcome => ?_
    rw [LoadReport.add_rename]
    exact ih (report.add form outcome)

/-- Reading brings in what is met, up to the end of the text or its first fault. -/
theorem brings_readAll (source : String) :
    Brings f (Reader.met .all source) (Except.map (List.map (Value.rename f)))
      (·.readAll source) (·.readAll source) where
  symbols i := by
    have symbols := Reader.symbols_read .all source i.symbols
    simp only [readAll, Reader.readAll, symbols]
    cases (Reader.read .all source i.symbols).1 with
    | error report => rfl
    | ok data => exact (brings_perform (Alloc.mirrors_ofData f data)).symbols _
  follows i table here there := by
    have read := Reader.read_renumber f .all source here there
    simp only [readAll, Reader.readAll, Reader.symbols_read, renumber, read]
    cases (Reader.read .all source i.symbols).1 with
    | error report => rfl
    | ok data =>
      exact (brings_perform (Alloc.mirrors_ofData f data)).follows
        { i with symbols := i.symbols.insertAll (Reader.met .all source) } _ here there

theorem brings_evalSource (source : String) :
    Brings f (Reader.met .all source) (renameOutcome f) (·.evalSource source)
      (·.evalSource source) := by
  simp only [evalSource_eq_andThen]
  exact (brings_readAll source).andThen (brings_evalForms .nil)

theorem brings_runSource (source : String) :
    Brings f (Reader.met .all source) (Except.map (List.map (renameOutcome f)))
      (·.runSource source) (·.runSource source) := by
  simp only [runSource_eq_andThen]
  exact (brings_readAll source).andThen fun forms => (brings_runForms forms).map fun _ => rfl

theorem brings_loadSource (source : String) :
    Brings f (Reader.met .all source) (Except.map (LoadReport.rename f)) (·.loadSource source)
      (·.loadSource source) := by
  simp only [loadSource_eq_andThen]
  exact (brings_readAll source).andThen fun forms => (brings_loadForms {} forms).map fun _ => rfl

/-- What is observed is the same but for the numbers of symbols, if the answer is. -/
theorem Brings.observe {r : α → β} {op : Interpreter → Except Error α × Interpreter}
    {op' : Interpreter → Except Error β × Interpreter}
    (brings : Brings f names (Except.map r) op op') {g : α → Answer Value} {h : β → Answer Value}
    (same : ∀ a, h (r a) = (g a).map (Value.rename f)) :
    Brings f names (Observation.map (Value.rename f))
      (fun i => (⟨(op i).1.map g, (op i).2.store.output⟩, (op i).2))
      fun i => (⟨(op' i).1.map h, (op' i).2.store.output⟩, (op' i).2) where
  symbols i := brings.symbols i
  follows i table here there := by
    simp only [brings.follows i table here there]
    cases (op i).1 with
    | ok a => simp only [Except.map, same, Observation.map, renumber, Store.rename]
    | error e => rfl

/-- **A text brings in what is met in it**, and comes to the same but for the numbers of symbols. -/
theorem brings_serve (driver : Driver) (source : String) :
    Brings f (Reader.met .all source) (Observation.map (Value.rename f)) (·.serve driver source)
      (·.serve driver source) := by
  cases driver with
  | eval => exact (brings_evalSource source).observe fun _ => rfl
  | run => exact (brings_runSource source).observe fun _ => rfl
  | load => exact (brings_loadSource source).observe (Answer.ofReport_rename f)

/-- **So do texts that are taken one after another.** -/
theorem brings_serveAll (script : List (Driver × String)) :
    Brings f (script.flatMap fun request => Reader.met .all request.2)
      (List.map (Observation.map (Value.rename f))) (·.serveAll script) (·.serveAll script) := by
  induction script with
  | nil => exact brings_pure (List.map (Observation.map (Value.rename f))) []
  | cons request script ih =>
    exact (brings_serve request.1 request.2).bind
      (fun seen i => (seen :: (i.serveAll script).1, (i.serveAll script).2))
      (fun seen i => (seen :: (i.serveAll script).1, (i.serveAll script).2))
      fun seen => ih.map fun _ => rfl

end Interpreter

end GuardedLisp
