import GuardedLisp.Interner

/-!
# Symbols and the table that numbers them

A symbol is a text with its number, and a `SymbolTable` is where symbols come from.  It numbers
texts in the order in which they are first met, and keeps one symbol for each of them.  So symbols
of one table are the same if their numbers are, and if their texts are.

The texts that the language itself has to recognise are the first ones in every table.

## Main definitions

* `Symbol`: a text with its number
* `Registry`: an interner, with the symbols of the texts that it knows
* `SymbolTable`: a registry whose first symbols are the keywords
* `SymbolTable.intern`, `SymbolTable.get?`: the symbol of a text, and whether there is one yet
-/

namespace GuardedLisp

/-- A name of the language: a text and the number that a table has for it. -/
@[ext] structure Symbol where
  id : Nat
  name : String
deriving DecidableEq, Repr, Inhabited

namespace Symbol

/-- Heads a quoted term. -/
def quote : Symbol := ⟨0, "quote"⟩

/-- Heads a template. -/
def quasiquote : Symbol := ⟨1, "quasiquote"⟩

/-- Heads the part of a template that is evaluated. -/
def unquote : Symbol := ⟨2, "unquote"⟩

/-- Is read from `,@` and refused by templates. -/
def unquoteSplicing : Symbol := ⟨3, "unquote-splicing"⟩

/-- Heads the function that a definition with a signature stands for. -/
def lambda : Symbol := ⟨4, "lambda"⟩

/-- Heads the body of every closure. -/
def begin : Symbol := ⟨5, "begin"⟩

/-- Is bound to the class whose method is being called. -/
def self : Symbol := ⟨6, "self"⟩

/-- The symbols that the language itself has to recognise, in the order of their numbers. -/
def keywords : List Symbol :=
  [quote, quasiquote, unquote, unquoteSplicing, lambda, begin, self]

end Symbol

/-! ## Registries -/

/-- An interner, and the symbols of the texts that it knows, in the order of their numbers. -/
structure Registry (ι : Type) [Interner ι] where
  interner : ι
  symbols : List Symbol
  /-- There is one symbol for every number. -/
  numbered : symbols.map Symbol.id = List.range (Interner.size interner)
  /-- The symbols have the numbers that the interner has for their texts. -/
  inStep (s : Symbol) : s ∈ symbols ↔ Interner.get? interner s.name = some s.id
deriving DecidableEq, Repr

namespace Registry

variable {ι : Type} [Interner ι] {r : Registry ι} {name : String} {s t : Symbol} {id : Nat}

theorem size_eq (r : Registry ι) : Interner.size r.interner = r.symbols.length := by
  have same := congrArg List.length r.numbered
  rw [List.length_map, List.length_range] at same
  exact same.symm

/-- A symbol is found at the place that its number says. -/
theorem getElem?_id (mem : s ∈ r.symbols) : r.symbols[s.id]? = some s := by
  obtain ⟨place, within, rfl⟩ := List.getElem_of_mem mem
  have same : (r.symbols.map Symbol.id)[place]? = (List.range r.symbols.length)[place]? := by
    rw [r.numbered, r.size_eq]
  rw [List.getElem?_map, List.getElem?_eq_getElem within, List.getElem?_range within] at same
  rw [Option.some.inj same, List.getElem?_eq_getElem within]

theorem id_lt (mem : s ∈ r.symbols) : s.id < r.symbols.length :=
  (List.getElem?_eq_some_iff.mp (getElem?_id mem)).1

/-- Symbols with one number are the same. -/
theorem eq_of_id (mem : s ∈ r.symbols) (mem' : t ∈ r.symbols) (same : s.id = t.id) : s = t := by
  have here := getElem?_id mem
  rw [same, getElem?_id mem', Option.some.injEq] at here
  exact here.symm

/-- The symbol with a number. -/
def find? (r : Registry ι) (id : Nat) : Option Symbol := r.symbols.find? fun s => s.id = id

theorem find?_eq_some_iff : r.find? id = some s ↔ s ∈ r.symbols ∧ s.id = id := by
  have sound {t : Symbol} (found : r.find? id = some t) : t ∈ r.symbols ∧ t.id = id := by
    rw [find?] at found
    have numbered := List.find?_some found
    exact ⟨List.mem_of_find?_eq_some found, of_decide_eq_true numbered⟩
  refine ⟨sound, fun ⟨mem, numbered⟩ => ?_⟩
  cases found : r.find? id with
  | none =>
    rw [find?, List.find?_eq_none] at found
    exact absurd (decide_eq_true numbered) (found s mem)
  | some t =>
    obtain ⟨mem', numbered'⟩ := sound found
    rw [eq_of_id mem' mem (numbered'.trans numbered.symm)]

/-- The symbol of a text, if there is one yet. -/
def get? (r : Registry ι) (name : String) : Option Symbol :=
  (Interner.get? r.interner name).bind r.find?

theorem get?_eq_some_iff : r.get? name = some s ↔ s ∈ r.symbols ∧ s.name = name := by
  constructor
  · intro known
    obtain ⟨id, numbered, found⟩ := Option.bind_eq_some_iff.mp known
    obtain ⟨mem, rfl⟩ := find?_eq_some_iff.mp found
    -- The symbol with this text has the same number.
    have own : (⟨s.id, name⟩ : Symbol) ∈ r.symbols := (r.inStep _).mpr numbered
    exact ⟨mem, congrArg Symbol.name (eq_of_id mem own rfl)⟩
  · rintro ⟨mem, rfl⟩
    rw [get?, (r.inStep s).mp mem, Option.bind_some, find?_eq_some_iff]
    exact ⟨mem, rfl⟩

/-- Symbols with one text are the same. -/
theorem eq_of_name (mem : s ∈ r.symbols) (mem' : t ∈ r.symbols) (same : s.name = t.name) :
    s = t := by
  have known : r.get? t.name = some s := get?_eq_some_iff.mpr ⟨mem, same⟩
  rw [get?_eq_some_iff.mpr ⟨mem', rfl⟩, Option.some.injEq] at known
  exact known.symm

/-- What is kept under the number of a text is the symbol of that text. -/
theorem find?_getOrIntern (r : Registry ι) (name : String) :
    r.find? (Interner.getOrIntern r.interner name).1 = r.get? name := by
  cases numbered : Interner.get? r.interner name with
  | some id => rw [Interner.getOrIntern_of_some numbered, get?, numbered, Option.bind_some]
  | none =>
    rw [Interner.getOrIntern_of_none numbered, get?, numbered, Option.bind_none, size_eq]
    refine List.find?_eq_none.mpr fun s mem => ?_
    simpa using Nat.ne_of_lt (id_lt mem)

theorem get?_interner_of_some (known : r.get? name = some s) :
    Interner.get? r.interner name = some s.id := by
  obtain ⟨mem, rfl⟩ := get?_eq_some_iff.mp known
  exact (r.inStep s).mp mem

theorem get?_interner_of_none (new : r.get? name = none) :
    Interner.get? r.interner name = none := by
  cases numbered : Interner.get? r.interner name with
  | none => rfl
  | some id =>
    have own : (⟨id, name⟩ : Symbol) ∈ r.symbols := (r.inStep _).mpr numbered
    rw [get?_eq_some_iff.mpr ⟨own, rfl⟩] at new
    cases new

/-- The symbol of a text.  If there is none yet then one is made. -/
def intern (r : Registry ι) (name : String) : Symbol × Registry ι :=
  match known : r.find? (Interner.getOrIntern r.interner name).1 with
  | some s => (s,
    { interner := (Interner.getOrIntern r.interner name).2
      symbols := r.symbols
      numbered := by
        rw [find?_getOrIntern] at known
        rw [Interner.getOrIntern_of_some (get?_interner_of_some known), r.numbered]
      inStep := by
        rw [find?_getOrIntern] at known
        rw [Interner.getOrIntern_of_some (get?_interner_of_some known)]
        exact r.inStep })
  | none =>
    let s : Symbol := ⟨(Interner.getOrIntern r.interner name).1, name⟩
    (s,
    { interner := (Interner.getOrIntern r.interner name).2
      symbols := r.symbols ++ [s]
      numbered := by
        rw [find?_getOrIntern] at known
        have new := get?_interner_of_none known
        rw [Interner.size_of_none new, List.range_succ, List.map_append, r.numbered,
          List.map_singleton]
        exact congrArg (_ ++ [·]) (Interner.getOrIntern_of_none new)
      inStep := by
        rw [find?_getOrIntern] at known
        have new := get?_interner_of_none known
        intro t
        rw [Interner.get?_of_none t.name new, List.mem_append, List.mem_singleton, r.inStep t,
          show s = ⟨Interner.size r.interner, name⟩ from
            congrArg (Symbol.mk · name) (Interner.getOrIntern_of_none new)]
        split
        · next same =>
          rw [same, new]
          simp [Symbol.ext_iff, same, eq_comm]
        · next other => simp [Symbol.ext_iff, other] })

/-- A text that has a symbol is given that, and nothing changes. -/
theorem intern_of_some (known : r.get? name = some s) : r.intern name = (s, r) := by
  have numbered := Interner.getOrIntern_of_some (get?_interner_of_some known)
  unfold intern
  split
  · next t found =>
    rw [find?_getOrIntern, known, Option.some.injEq] at found
    simp only [found, numbered]
  · next found =>
    rw [find?_getOrIntern, known] at found
    cases found

/-- A new text is given a symbol with the next number, which comes last. -/
theorem intern_of_none (new : r.get? name = none) :
    (r.intern name).1 = ⟨r.symbols.length, name⟩ ∧
      (r.intern name).2.symbols = r.symbols ++ [⟨r.symbols.length, name⟩] := by
  have numbered := Interner.getOrIntern_of_none (get?_interner_of_none new)
  rw [size_eq] at numbered
  unfold intern
  split
  · next found =>
    rw [find?_getOrIntern, new] at found
    cases found
  · simp only [numbered, and_self]

theorem get?_eq_none_iff : r.get? name = none ↔ name ∉ r.symbols.map Symbol.name := by
  rw [Option.eq_none_iff_forall_ne_some, List.mem_map, not_exists]
  exact forall_congr' fun s => not_congr get?_eq_some_iff

/-- The symbols with one for a text among them. -/
def extend (symbols : List Symbol) (name : String) : List Symbol :=
  if name ∈ symbols.map Symbol.name then symbols else symbols ++ [⟨symbols.length, name⟩]

/-- Which symbols there are does not depend on how the texts are numbered. -/
theorem symbols_intern (r : Registry ι) (name : String) :
    (r.intern name).2.symbols = extend r.symbols name := by
  unfold extend
  cases known : r.get? name with
  | some s =>
    rw [intern_of_some known]
    obtain ⟨mem, rfl⟩ := get?_eq_some_iff.mp known
    rw [if_pos (List.mem_map_of_mem mem)]
  | none => rw [(intern_of_none known).2, if_neg (get?_eq_none_iff.mp known)]

theorem prefix_extend (symbols : List Symbol) (name : String) :
    symbols <+: extend symbols name := by
  unfold extend
  split
  · exact List.prefix_rfl
  · exact List.prefix_append _ _

/-- A registry without a symbol. -/
def empty : Registry ι where
  interner := Interner.empty
  symbols := []
  numbered := by rw [Interner.size_empty, List.range_zero, List.map_nil]
  inStep s := by simp [Interner.get?_empty]

/-- The registry once there is a symbol for each of some texts. -/
def internAll (r : Registry ι) (names : List String) : Registry ι :=
  names.foldl (fun r name => (r.intern name).2) r

theorem symbols_internAll (r : Registry ι) (names : List String) :
    (r.internAll names).symbols = names.foldl extend r.symbols := by
  unfold internAll
  induction names generalizing r with
  | nil => rfl
  | cons name names ih => rw [List.foldl_cons, List.foldl_cons, ih, symbols_intern]

end Registry

/-! ## Symbol tables -/

/-- A registry in which the keywords come first. -/
structure SymbolTable (ι : Type := Numbering) [Interner ι] extends Registry ι where
  keywords_prefix : Symbol.keywords <+: symbols
deriving DecidableEq, Repr

namespace SymbolTable

variable {ι : Type} [Interner ι] {table : SymbolTable ι} {name other : String} {s : Symbol}

theorem foldl_extend_keywords :
    (Symbol.keywords.map Symbol.name).foldl Registry.extend [] = Symbol.keywords := by decide

/-- A table that knows the keywords only. -/
def initial : SymbolTable ι where
  toRegistry := Registry.empty.internAll (Symbol.keywords.map Symbol.name)
  keywords_prefix := by
    have known : ((Registry.empty : Registry ι).internAll
        (Symbol.keywords.map Symbol.name)).symbols = Symbol.keywords :=
      (Registry.symbols_internAll _ _).trans foldl_extend_keywords
    exact ⟨[], (List.append_nil _).trans known.symm⟩

instance : Inhabited (SymbolTable ι) := ⟨initial⟩

/-- The texts that a table knows, in the order of their numbers. -/
def names (table : SymbolTable ι) : List String := table.symbols.map Symbol.name

/-- How many texts a table knows. -/
def size (table : SymbolTable ι) : Nat := Interner.size table.interner

/-- The symbol of a text, if the table has one. -/
def get? (table : SymbolTable ι) (name : String) : Option Symbol := table.toRegistry.get? name

/-- The number of a text, if the table knows it. -/
def id? (table : SymbolTable ι) (name : String) : Option Nat := (table.get? name).map Symbol.id

/-- The symbol of a text, together with the table that has it. -/
def intern (table : SymbolTable ι) (name : String) : Symbol × SymbolTable ι :=
  let interned := table.toRegistry.intern name
  (interned.1,
    { toRegistry := interned.2
      keywords_prefix := by
        rw [Registry.symbols_intern]
        exact table.keywords_prefix.trans (Registry.prefix_extend _ _) })

/-- The table once a text has been met. -/
def insert (table : SymbolTable ι) (name : String) : SymbolTable ι := (table.intern name).2

/-- The table once every text of a list has been met. -/
def insertAll (table : SymbolTable ι) (names : List String) : SymbolTable ι :=
  names.foldl insert table

theorem size_eq (table : SymbolTable ι) : table.size = table.symbols.length :=
  table.toRegistry.size_eq

theorem eq_of_id {t : Symbol} (mem : s ∈ table.symbols) (mem' : t ∈ table.symbols)
    (same : s.id = t.id) : s = t := Registry.eq_of_id mem mem' same

theorem eq_of_name {t : Symbol} (mem : s ∈ table.symbols) (mem' : t ∈ table.symbols)
    (same : s.name = t.name) : s = t := Registry.eq_of_name mem mem' same

/-- No two symbols of a table have the same text. -/
theorem nodup_names (table : SymbolTable ι) : table.names.Nodup := by
  have nodup : (table.symbols.map Symbol.id).Nodup := by
    rw [table.numbered]
    exact List.nodup_range
  refine List.pairwise_map.mpr ((List.pairwise_map.mp nodup).imp_of_mem ?_)
  exact fun mem mem' other same => other (congrArg Symbol.id (eq_of_name mem mem' same))

/-- A table has one symbol for each text. -/
theorem get?_eq_some_iff : table.get? name = some s ↔ s ∈ table.symbols ∧ s.name = name :=
  Registry.get?_eq_some_iff

theorem get?_eq_none_iff : table.get? name = none ↔ name ∉ table.names := Registry.get?_eq_none_iff

theorem intern_of_some (known : table.get? name = some s) : table.intern name = (s, table) := by
  simp only [intern, Registry.intern_of_some known]

theorem intern_of_none (new : table.get? name = none) :
    (table.intern name).1 = ⟨table.size, name⟩ ∧
      (table.intern name).2.symbols = table.symbols ++ [⟨table.size, name⟩] := by
  rw [size_eq]
  exact Registry.intern_of_none new

theorem symbols_insert (table : SymbolTable ι) (name : String) :
    (table.insert name).symbols = Registry.extend table.symbols name :=
  table.toRegistry.symbols_intern name

theorem prefix_insert (table : SymbolTable ι) (name : String) :
    table.symbols <+: (table.insert name).symbols := by
  rw [symbols_insert]
  exact Registry.prefix_extend _ _

/-- A table only grows. -/
theorem prefix_insertAll (table : SymbolTable ι) (names : List String) :
    table.symbols <+: (table.insertAll names).symbols := by
  induction names generalizing table with
  | nil => exact List.prefix_rfl
  | cons name names ih => exact (table.prefix_insert name).trans (ih (table.insert name))

/-- A text keeps its symbol when a table grows. -/
theorem get?_of_prefix {κ : Type} [Interner κ] {known : SymbolTable κ}
    (later : table.symbols <+: known.symbols) (here : table.get? name = some s) :
    known.get? name = some s := by
  obtain ⟨mem, same⟩ := get?_eq_some_iff.mp here
  exact get?_eq_some_iff.mpr ⟨later.subset mem, same⟩

/-- What is interned is known afterwards. -/
theorem get?_insert_self (table : SymbolTable ι) (name : String) :
    (table.insert name).get? name = some (table.intern name).1 := by
  cases known : table.get? name with
  | some s => rw [insert, intern_of_some known, known]
  | none =>
    obtain ⟨made, symbols⟩ := intern_of_none known
    rw [get?_eq_some_iff, insert, symbols, made]
    exact ⟨List.mem_append_right _ (List.mem_singleton_self _), rfl⟩

/-- The symbol of a text has that text. -/
theorem name_intern (table : SymbolTable ι) (name : String) : (table.intern name).1.name = name :=
  (get?_eq_some_iff.mp (table.get?_insert_self name)).2

/-- A new text comes last. -/
theorem names_insert (table : SymbolTable ι) (name : String) :
    (table.insert name).names =
      if name ∈ table.names then table.names else table.names ++ [name] := by
  unfold names
  rw [symbols_insert, Registry.extend]
  split <;> simp

@[simp] theorem mem_names_insert :
    other ∈ (table.insert name).names ↔ other ∈ table.names ∨ other = name := by
  rw [names_insert]
  split
  · next known =>
    refine ⟨Or.inl, ?_⟩
    rintro (h | rfl)
    · exact h
    · exact known
  · simp

theorem insert_of_mem (known : name ∈ table.names) : table.insert name = table := by
  obtain ⟨s, mem, rfl⟩ := List.mem_map.mp known
  rw [insert, intern_of_some (get?_eq_some_iff.mpr ⟨mem, rfl⟩)]

@[simp] theorem mem_names_insertAll {names : List String} :
    other ∈ (table.insertAll names).names ↔ other ∈ table.names ∨ other ∈ names := by
  unfold insertAll
  induction names generalizing table with
  | nil => simp
  | cons name names ih =>
    rw [List.foldl_cons, ih, mem_names_insert, List.mem_cons, or_assoc]

theorem insertAll_append (table : SymbolTable ι) (first second : List String) :
    table.insertAll (first ++ second) = (table.insertAll first).insertAll second := by
  simp [insertAll, List.foldl_append]

/-- Entries keyed by symbols of a table, arranged by the numbers of the symbols. -/
def arrange (_ : SymbolTable ι) (entries : List (Symbol × α)) : List (Symbol × α) :=
  entries.mergeSort fun a b => a.1.id ≤ b.1.id

end SymbolTable

end GuardedLisp
