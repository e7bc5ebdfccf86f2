import GuardedLisp.Interpreter
import GuardedLisp.Proofs.Reader.Written

/-!
# Printing and reading

A value that is built as a text can denote, from named symbols, and whose text is not nested too
deeply, is read back from its text.  What is read back has the same text.  Every value that the
reader returns is such a value.

## Main definitions

* `Value.datum?`: what a value was made of, if it is built as a text can denote
* `Value.Writable`: a value can be read back from its text

## Main results

* `Interpreter.readOne_text_of_writable`: the text of a value denotes the value
* `Interpreter.writable_of_readOne`, `Interpreter.writable_of_readAll`: what has been read is
  writable
* `Interpreter.readOne_text`: printing then reading gives a value back
-/

namespace GuardedLisp

namespace SymbolTable

/-- If all but one text is known then no other is brought in. -/
theorem insertAll_eq {table : SymbolTable} {names : List String} (new : String)
    (known : ∀ name ∈ names, name ∈ table.names ∨ name = new) :
    table.insertAll names = if new ∈ names then table.insert new else table := by
  induction names generalizing table with
  | nil => rfl
  | cons name names ih =>
    rw [List.forall_mem_cons] at known
    obtain ⟨here, later⟩ := known
    have rest : (table.insert name).insertAll names =
        if new ∈ names then (table.insert name).insert new else table.insert name :=
      ih fun other mem => (later other mem).imp_left fun old => mem_names_insert.mpr (.inl old)
    rw [insertAll, List.foldl_cons, ← insertAll, rest]
    obtain old | rfl := here
    · rw [insert_of_mem old]
      by_cases same : new = name
      · simp [same, insert_of_mem old]
      · simp [same]
    · rw [if_pos List.mem_cons_self, insert_of_mem (mem_names_insert.mpr (.inr rfl)), ite_self]

end SymbolTable

namespace Datum

variable {nilSymbol : Symbol}

/-- The symbols that a datum is read back with are its own, and `nil` at most. -/
theorem symbols_reread (d : Datum) (asTail : Bool) :
    ∀ name ∈ (d.reread nilSymbol asTail).symbols, name ∈ d.symbols ∨ name = nilSymbol := by
  induction d generalizing asTail with
  | nil =>
    cases asTail with
    | false => exact fun name mem => .inr (List.mem_singleton.mp mem)
    | true => exact fun name mem => absurd mem List.not_mem_nil
  | integer | string => exact fun name mem => absurd mem List.not_mem_nil
  | symbol name => exact fun other mem => .inl mem
  | pair first rest ihFirst ihRest =>
    intro name mem
    obtain mem | mem := List.mem_append.mp mem
    · exact (ihFirst false name mem).imp_left (List.mem_append_left _)
    · exact (ihRest true name mem).imp_left (List.mem_append_right _)

/-- If a datum is not what it is read back as then there is a `nil` in it that is read as a
symbol. -/
theorem mem_symbols_reread {d : Datum} {asTail : Bool}
    (changed : d.reread nilSymbol asTail ≠ d) :
    nilSymbol ∈ (d.reread nilSymbol asTail).symbols := by
  induction d generalizing asTail with
  | nil =>
    cases asTail with
    | false => exact List.mem_singleton_self _
    | true => exact absurd rfl changed
  | integer | string | symbol => exact absurd rfl changed
  | pair first rest ihFirst ihRest =>
    by_cases same : first.reread nilSymbol false = first
    · refine List.mem_append_right _ (ihRest fun same' => changed ?_)
      rw [reread, same, same']
    · exact List.mem_append_left _ (ihFirst same)

end Datum

/-! ## Values and data -/

namespace Value

/-- What a value was made of, if it is built as a text can denote. -/
def datum? : Value → Option Datum
  | nil => some .nil
  | symbol name => some (.symbol name)
  | integer n => some (.integer n)
  | string _ text => some (.string text)
  | pair _ first rest => first.datum?.bind fun first => rest.datum?.map (.pair first)
  | bool _ | closure .. | builtin _ | classObject _ => none

theorem toList_write {v : Value} {d : Datum} (made : v.datum? = some d) (asTail : Bool) :
    (v.write asTail).toList = d.write asTail := by
  induction v generalizing d asTail with
  | pair address first rest ihFirst ihRest =>
    obtain ⟨a, madeFirst, made⟩ := Option.bind_eq_some_iff.mp made
    obtain ⟨b, madeRest, rfl⟩ := Option.map_eq_some_iff.mp made
    rw [write_pair, String.toList_append, String.toList_append, ihFirst madeFirst,
      ihRest madeRest]
    cases asTail <;> rfl
  | nil | symbol | integer | string =>
    obtain rfl := Option.some.inj made
    cases asTail <;> simp [write, writeAfter, Datum.write, Datum.alone, atomText]
  | bool | closure | builtin | classObject => cases made

/-- A value can be read back from its text: it is made of a given datum, whose symbols are written
as such and are those of a table, and its text is not nested too deeply. -/
structure Writable (v : Value) (d : Datum) (table : SymbolTable) : Prop where
  made : v.datum? = some d
  named : d.Named
  known : d.Known table
  shallow : LineMode.code.peak v.text.toList < Reader.maxDepth

/-- The brackets of the text are nested as deep as what the value is made of. -/
theorem peak_text {v : Value} {d : Datum} (made : v.datum? = some d) (named : d.Named) :
    LineMode.code.peak v.text.toList = d.nesting := by
  have nested := (Datum.peak_write named []).1
  rw [List.append_nil, ← toList_write made] at nested
  rw [text, nested, LineMode.peak]
  omega

end Value

theorem Alloc.datum?_ofDatum (d : Datum) (start : Address) :
    ((Alloc.ofDatum d).run start).1.datum? = some d := by
  induction d generalizing start with
  | pair first rest ihFirst ihRest =>
    have one := ihFirst start
    have two := ihRest ((ofDatum first).run start).2
    show (Value.pair _ ((ofDatum first).run start).1
      ((ofDatum rest).run ((ofDatum first).run start).2).1).datum? = _
    rw [Value.datum?, one, Option.bind_some, two, Option.map_some]
  | nil | integer | string | symbol => rfl

/-- Values that are made one after another have their data one after another. -/
theorem Alloc.exists_datum_of_mem {data : List Datum} {start : Address} {v : Value}
    (mem : v ∈ ((data.mapM Alloc.ofDatum).run start).1) :
    ∃ datum ∈ data, v.datum? = some datum := by
  induction data generalizing start with
  | nil => cases mem
  | cons first data ih =>
    rw [List.mapM_cons] at mem
    obtain rfl | mem := List.mem_cons.mp mem
    · exact ⟨first, List.mem_cons_self, datum?_ofDatum first start⟩
    · obtain ⟨datum, known, made⟩ := ih mem
      exact ⟨datum, List.mem_cons_of_mem _ known, made⟩

/-! ## The text of a value denotes the value -/

namespace Reader

theorem readOne_of_read {source : String} {table known : SymbolTable} {datum : Datum}
    (h : read .one source table = (.ok [datum], known)) :
    readOne source table = (.ok datum, known) := by
  rw [readOne, h]
  rfl

/-- A text that holds one form is read as that form. -/
theorem read_of_readOne {source : String} {table known : SymbolTable} {datum : Datum}
    (h : readOne source table = (.ok datum, known)) :
    read .one source table = (.ok [datum], known) := by
  cases outcome : read .one source table with
  | mk result symbols =>
    rw [readOne, outcome] at h
    cases result with
    | error report => cases congrArg Prod.fst h
    | ok forms =>
      obtain ⟨-, -, -, single, -⟩ := read_eq_ok_iff.mp outcome
      obtain ⟨form, rfl⟩ := List.length_eq_one_iff.mp (single rfl)
      cases h
      rfl

end Reader

namespace Value.Writable

variable {v : Value} {d : Datum} {table : SymbolTable}

theorem of_made (made : v.datum? = some d) (fits : d.Fits 0 table) : v.Writable d table := by
  refine ⟨made, fits.named, fits.known, ?_⟩
  have nested := fits.nested
  rw [Nat.zero_add] at nested
  rw [peak_text made fits.named]
  exact Int.ofNat_lt.mpr nested

theorem nesting_lt (h : v.Writable d table) : d.nesting < Reader.maxDepth := by
  have shallow := h.shallow
  rw [peak_text h.made h.named] at shallow
  exact Int.ofNat_lt.mp shallow

/-- The text of a value splits into the tokens of what it is made of. -/
theorem splits (h : v.Writable d table) : Reader.Splits v.text.toList (d.tokens false) := by
  have ends : ∀ c ∈ ([] : List Char).head?, Atom.isAtomChar c = false := nofun
  have split := Datum.splits_write h.named ends .nil false
  rwa [List.append_nil, List.append_nil, ← toList_write h.made] at split

/-- No symbol but `nil` is brought in, and that only if it was no symbol. -/
theorem insertAll_names (h : v.Writable d table) :
    table.insertAll ((d.tokens false).flatMap Reader.Token.names) =
      if d.reread (table.intern "nil").1 false = d then table else table.insert "nil" := by
  have isNil := table.name_intern "nil"
  rw [Datum.names_tokens isNil h.named]
  have known (name : Symbol) (mem : name ∈ d.symbols) : name.name ∈ table.names :=
    List.mem_map_of_mem (h.known name mem)
  -- If it is read back as it is then all its symbols are its own, and these are known.
  by_cases same : d.reread (table.intern "nil").1 false = d
  · rw [if_pos same, same, SymbolTable.insertAll_eq "nil", ite_eq_right_iff]
    · intro met
      obtain ⟨name, mem, met⟩ := List.mem_map.mp met
      exact SymbolTable.insert_of_mem (met ▸ known name mem)
    · intro name met
      obtain ⟨name, mem, rfl⟩ := List.mem_map.mp met
      exact .inl (known name mem)
  · rw [if_neg same, SymbolTable.insertAll_eq "nil", if_pos]
    · exact List.mem_map.mpr ⟨_, Datum.mem_symbols_reread same, isNil⟩
    · intro name met
      obtain ⟨name, mem, rfl⟩ := List.mem_map.mp met
      obtain own | rfl := Datum.symbols_reread d false name mem
      · exact .inl (known name own)
      · exact .inr isNil

/-- All symbols that the text is read with are known then. -/
theorem known_reread (h : v.Writable d table) :
    (d.reread (table.intern "nil").1 false).Known
      (if d.reread (table.intern "nil").1 false = d then table else table.insert "nil") := by
  split
  · next same =>
    rw [same]
    exact h.known
  · intro name mem
    obtain own | rfl := Datum.symbols_reread d false name mem
    · exact (table.prefix_insert "nil").subset (h.known name own)
    · exact (SymbolTable.get?_eq_some_iff.mp (table.get?_insert_self "nil")).1

/-- The text of a value denotes what the value is made of. -/
theorem readOne (h : v.Writable d table) :
    Reader.readOne v.text table =
      (.ok (d.reread (table.intern "nil").1 false),
        if d.reread (table.intern "nil").1 false = d then table else table.insert "nil") := by
  have derived := (Datum.expression_tokens (table.name_intern "nil") h.named 0).1 h.known_reread
    (by simpa using h.nesting_lt)
  refine Reader.readOne_of_read (Reader.read_eq_ok_iff.mpr ⟨_, h.splits, derived.single, ?_, ?_⟩)
  · exact fun _ => rfl
  · exact h.insertAll_names.symm

end Value.Writable

namespace Interpreter

variable {i j : Interpreter} {source : String}

theorem readOne_of_ok {datum : Datum} {known : SymbolTable}
    (h : Reader.readOne source i.symbols = (.ok datum, known)) :
    ∃ v j, i.readOne source = (.ok v, j) ∧ v.datum? = some datum ∧ j.symbols = known := by
  rw [readOne, h]
  exact ⟨_, _, rfl, Alloc.datum?_ofDatum datum _, rfl⟩

theorem exists_of_readOne {v : Value} (h : i.readOne source = (.ok v, j)) :
    ∃ datum, Reader.readOne source i.symbols = (.ok datum, j.symbols) ∧
      v.datum? = some datum := by
  cases outcome : Reader.readOne source i.symbols with
  | mk result known =>
    cases result with
    | error report =>
      rw [readOne, outcome] at h
      cases congrArg Prod.fst h
    | ok datum =>
      obtain ⟨w, k, found, made, rfl⟩ := readOne_of_ok outcome
      cases found.symm.trans h
      exact ⟨datum, rfl, made⟩

theorem exists_of_readAll {vs : List Value} (h : i.readAll source = (.ok vs, j)) :
    ∃ data, Reader.readAll source i.symbols = (.ok data, j.symbols) ∧
      ∀ v ∈ vs, ∃ datum ∈ data, v.datum? = some datum := by
  cases outcome : Reader.readAll source i.symbols with
  | mk result known =>
    cases result with
    | error report =>
      rw [readAll, outcome] at h
      cases congrArg Prod.fst h
    | ok data =>
      rw [readAll, outcome] at h
      cases h
      refine ⟨data, rfl, fun v mem => ?_⟩
      exact Alloc.exists_datum_of_mem mem

/-- **What has been read is writable**, with the symbols that are known then. -/
theorem writable_of_readOne {v : Value} (h : i.readOne source = (.ok v, j)) :
    ∃ d, v.Writable d j.symbols := by
  obtain ⟨datum, read, made⟩ := exists_of_readOne h
  have fits := Reader.fits_of_read (Reader.read_of_readOne read) datum (List.mem_singleton_self _)
  exact ⟨datum, .of_made made fits⟩

theorem writable_of_readAll {vs : List Value} (h : i.readAll source = (.ok vs, j)) :
    ∀ v ∈ vs, ∃ d, v.Writable d j.symbols := by
  obtain ⟨data, read, made⟩ := exists_of_readAll h
  intro v mem
  obtain ⟨datum, mem, made⟩ := made v mem
  exact ⟨datum, .of_made made (Reader.fits_of_read read datum mem)⟩

/-- **The text of a value denotes the value**, but each `nil` in it that does not end a list is read
as a symbol.  The value that is read has the same text. -/
theorem readOne_text_of_writable {v : Value} {d : Datum} (h : v.Writable d i.symbols) :
    let nilSymbol := (i.symbols.intern "nil").1
    ∃ w j, i.readOne v.text = (.ok w, j) ∧ w.datum? = some (d.reread nilSymbol false) ∧
      w.text = v.text ∧
      j.symbols =
        if d.reread nilSymbol false = d then i.symbols else i.symbols.insert "nil" := by
  obtain ⟨w, j, read, made, symbols⟩ := readOne_of_ok h.readOne
  refine ⟨w, j, read, made, ?_, symbols⟩
  rw [← String.toList_inj, Value.text, Value.text, Value.toList_write made,
    Value.toList_write h.made, Datum.write_reread (i.symbols.name_intern "nil")]

/-- **Printing then reading gives a value back.**  A value that is built from `nil`, integers,
strings, symbols of the table that are written as such, and pairs, and whose text is nested no
deeper than the reader goes, is read back from its text with every `nil` that does not end a list
replaced by the symbol `nil`, and no other symbol is brought in.  What is read has the same text.
And every value that the reader returns is such a value. -/
theorem readOne_text (i : Interpreter) :
    (∀ (v : Value) (d : Datum), v.Writable d i.symbols →
      let nilSymbol := (i.symbols.intern "nil").1
      ∃ w j, i.readOne v.text = (.ok w, j) ∧ w.datum? = some (d.reread nilSymbol false) ∧
        w.text = v.text ∧
        j.symbols =
          if d.reread nilSymbol false = d then i.symbols else i.symbols.insert "nil") ∧
    (∀ source v j, i.readOne source = (.ok v, j) → ∃ d, v.Writable d j.symbols) ∧
    ∀ source vs j, i.readAll source = (.ok vs, j) → ∀ v ∈ vs, ∃ d, v.Writable d j.symbols :=
  ⟨fun _ _ => readOne_text_of_writable, fun _ _ _ => writable_of_readOne,
    fun _ _ _ => writable_of_readAll⟩

/-- A list with a number, a string with a quote and a bracket in it, `nil`, and a dot. -/
def mixedList : Value :=
  .pair 3 (.integer (-5)) (.pair 2 (.string 1 "a\"(") (.pair 0 .nil (.symbol (.global "car"))))

/-- A fresh interpreter reads it back from its text, and can do so again. -/
theorem readOne_text_mixedList :
    mixedList.text = "(-5 \"a\\\"(\" nil . car)" ∧
      ∃ w j d, (fresh 128).readOne mixedList.text = (.ok w, j) ∧ w.text = mixedList.text ∧
        w.Writable d j.symbols := by
  obtain ⟨back, again⟩ := readOne_text (fresh 128)
  have writable : mixedList.Writable (.pair (.integer (-5)) (.pair (.string "a\"(")
      (.pair .nil (.symbol (.global "car"))))) (fresh 128).symbols :=
    ⟨by decide +kernel, by decide +kernel, by decide +kernel, by decide +kernel⟩
  obtain ⟨w, j, read, -, text, -⟩ := back _ _ writable
  obtain ⟨d, writable⟩ := again.1 _ _ _ read
  exact ⟨by decide +kernel, w, j, d, read, text, writable⟩

end Interpreter

end GuardedLisp
