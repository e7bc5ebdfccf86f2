import GuardedLisp.Proofs.Reader.Stop
import GuardedLisp.Proofs.Reader.Written

/-!
# The numbers of symbols

A symbol table grows when a text is interned and when a source is read, be it that the source can
be read or not.  Either way texts are met one after another, and those that are new get the next
numbers.  So the numbers are the places in the list of the texts that have been met, each at its
first appearance, and what is met later changes none of them.

All of this rests on what is relied on of the interner, whichever it is.

## Main definitions

* `Request`, `Request.Reply`: what is asked of a table, and what it hands out
* `Request.Meets`, `Request.MeetAll`: the texts that requests meet, in the order in which they meet
  them

## Main results

* `SymbolTable.names_insertAll`: the distinct new texts are appended
* `Request.exists_meets`, `Request.known_serve`: what one request does, and what it is answered with
* `Request.exists_meetAll`, `Request.known_serveAll`: the same of a sequence of requests
* `Request.numbering`: numbers are dense, stable and one to one with texts
-/

namespace GuardedLisp

variable {ι : Type} [Interner ι]

namespace SymbolTable

/-! ## Texts that are met one after another -/

theorem eraseDups_of_nodup {names : List String} (nodup : names.Nodup) :
    names.eraseDups = names := by
  induction names with
  | nil => rfl
  | cons name names ih =>
    obtain ⟨fresh, nodup⟩ := List.nodup_cons.mp nodup
    have kept : names.filter (fun other => !other == name) = names :=
      List.filter_eq_self.mpr fun other mem => by
        simpa using fun same : other = name => fresh (same ▸ mem)
    rw [List.eraseDups_cons, kept, ih nodup]

/-- The distinct new texts are appended, in the order in which they are met. -/
theorem names_insertAll (table : SymbolTable ι) (names : List String) :
    (table.insertAll names).names = table.names ++ (names.removeAll table.names).eraseDups := by
  induction names generalizing table with
  | nil => simp [insertAll, List.removeAll]
  | cons name names ih =>
    rw [insertAll, List.foldl_cons, ← insertAll, ih, names_insert]
    split
    · next known => simp [List.removeAll, known]
    · next unknown =>
      have first : (name :: names).removeAll table.names = name :: names.removeAll table.names := by
        simp [List.removeAll, unknown]
      have later : names.removeAll (table.names ++ [name]) =
          (names.removeAll table.names).filter fun other => !other == name := by
        rw [List.removeAll, List.removeAll, List.filter_filter]
        refine List.filter_congr fun other _ => ?_
        by_cases same : other = name <;> simp [same]
      rw [first, List.eraseDups_cons, later, List.append_assoc, List.singleton_append]

/-- A table lists each text at its first appearance. -/
theorem names_insertAll_eq_eraseDups (table : SymbolTable ι) (names : List String) :
    (table.insertAll names).names = (table.names ++ names).eraseDups := by
  rw [names_insertAll, List.eraseDups_append, eraseDups_of_nodup table.nodup_names]

theorem names_initial : (initial : SymbolTable ι).names = Symbol.keywords.map Symbol.name := by
  have symbols : (initial : SymbolTable ι).symbols = Symbol.keywords := by
    rw [initial, Registry.symbols_internAll]
    exact foldl_extend_keywords
  rw [names, symbols]

end SymbolTable

/-! ## Requests -/

/-- What may be asked of a symbol table. -/
inductive Request where
  | intern (name : String)
  /-- To look a text up. -/
  | get (name : String)
  /-- To read the form of a source that is to hold exactly one. -/
  | readOne (source : String)
  /-- To read all forms of a source. -/
  | readAll (source : String)
deriving DecidableEq, Repr

/-- What a request is answered with. -/
inductive Request.Reply where
  | interned (s : Symbol)
  | found (s : Option Symbol)
  | form (outcome : Except ParseError Datum)
  | forms (outcome : Except ParseError (List Datum))
deriving Repr

/-- The symbols that a reply hands out. -/
def Request.Reply.symbols : Request.Reply → List Symbol
  | .interned s => [s]
  | .found s => s.toList
  | .form outcome => outcome.toOption.toList.flatMap Datum.symbols
  | .forms outcome => outcome.toOption.toList.flatten.flatMap Datum.symbols

namespace Request

/-- The reply to a request, and the table after it. -/
def serve (table : SymbolTable ι) : Request → Reply × SymbolTable ι
  | .intern name => (.interned (table.intern name).1, (table.intern name).2)
  | .get name => (.found (table.get? name), table)
  | .readOne source => (.form (Reader.readOne source table).1, (Reader.readOne source table).2)
  | .readAll source => (.forms (Reader.readAll source table).1, (Reader.readAll source table).2)

/-- The replies to requests that come one after another, and the table after them. -/
def serveAll (table : SymbolTable ι) : List Request → List Reply × SymbolTable ι
  | [] => ([], table)
  | request :: requests =>
    let (reply, table) := serve table request
    let (replies, table) := serveAll table requests
    (reply :: replies, table)

/-- The texts that a request meets, in the order in which it meets them.  In a source these are the
atoms before the place where the reader stops, as far as they are not written as integers. -/
def Meets : Request → List String → Prop
  | .intern name, names => names = [name]
  | .get _, names => names = []
  | .readOne source, names => ∃ tokens,
      Reader.LiesBefore source.toList (Reader.stop .one source) tokens ∧
        names = tokens.flatMap Reader.Token.names
  | .readAll source, names => ∃ tokens,
      Reader.LiesBefore source.toList (Reader.stop .all source) tokens ∧
        names = tokens.flatMap Reader.Token.names

theorem Meets.unique {request : Request} {names names' : List String}
    (meets : request.Meets names) (again : request.Meets names') : names = names' := by
  cases request with
  | intern | get => exact meets.trans again.symm
  | readOne source | readAll source =>
    obtain ⟨tokens, before, rfl⟩ := meets
    obtain ⟨tokens', before', rfl⟩ := again
    rw [before.unique before']

/-- A request brings the texts that it meets into the table, and does nothing else to it. -/
theorem exists_meets (table : SymbolTable ι) (request : Request) :
    ∃ names, request.Meets names ∧ (serve table request).2 = table.insertAll names := by
  cases request with
  | intern name => exact ⟨[name], rfl, rfl⟩
  | get name => exact ⟨[], rfl, rfl⟩
  | readOne source =>
    obtain ⟨tokens, before, known⟩ := Reader.exists_liesBefore .one source table
    exact ⟨_, ⟨tokens, before, rfl⟩, known⟩
  | readAll source =>
    obtain ⟨tokens, before, known⟩ := Reader.exists_liesBefore .all source table
    exact ⟨_, ⟨tokens, before, rfl⟩, known⟩

/-- What is read has symbols of the table after it. -/
theorem known_read (goal : Reader.Goal) (source : String) (table : SymbolTable ι) :
    ∀ datum ∈ (Reader.read goal source table).1.toOption.toList.flatten,
      datum.Known (Reader.read goal source table).2 := by
  cases outcome : Reader.read goal source table with
  | mk result known =>
    cases result with
    | error report => exact fun datum mem => absurd mem List.not_mem_nil
    | ok forms =>
      intro datum mem
      have read : datum ∈ forms := by simpa [Except.toOption] using mem
      exact (Reader.fits_of_read outcome datum read).known

/-- **All symbols that a request hands out are those of the table after it.** -/
theorem known_serve (table : SymbolTable ι) (request : Request) :
    ∀ s ∈ (serve table request).1.symbols, s ∈ (serve table request).2.symbols := by
  cases request with
  | intern name =>
    refine List.forall_mem_singleton.mpr ?_
    exact (SymbolTable.get?_eq_some_iff.mp (table.get?_insert_self name)).1
  | get name =>
    intro s mem
    exact (SymbolTable.get?_eq_some_iff.mp (Option.mem_toList.mp mem)).1
  | readOne source =>
    have known := known_read .one source table
    intro s mem
    obtain ⟨datum, found, mem⟩ := List.mem_flatMap.mp mem
    simp only [Reader.readOne] at found ⊢
    cases outcome : (Reader.read .one source table).1 with
    | error report =>
      rw [outcome] at found
      cases found
    | ok forms =>
      rw [outcome] at found known
      obtain rfl := List.mem_singleton.mp found
      cases forms with
      | nil => cases mem
      | cons form forms => exact known form (by simp [Except.toOption]) s mem
  | readAll source =>
    intro s mem
    obtain ⟨datum, found, mem⟩ := List.mem_flatMap.mp mem
    exact known_read .all source table datum found s mem

/-- The texts that requests meet when they come one after another. -/
inductive MeetAll : List Request → List String → Prop
  | nil : MeetAll [] []
  | cons {request : Request} {requests : List Request} {names met : List String} :
      request.Meets names → MeetAll requests met → MeetAll (request :: requests) (names ++ met)

theorem MeetAll.unique {requests : List Request} {met met' : List String}
    (meet : MeetAll requests met) (again : MeetAll requests met') : met = met' := by
  induction meet generalizing met' with
  | nil =>
    cases again
    rfl
  | cons meets _ ih =>
    cases again with
    | cons meets' again => rw [meets.unique meets', ih again]

/-- Requests bring all the texts that they meet into the table, one request after another. -/
theorem exists_meetAll (table : SymbolTable ι) (requests : List Request) :
    ∃ met, MeetAll requests met ∧ (serveAll table requests).2 = table.insertAll met := by
  induction requests generalizing table with
  | nil => exact ⟨[], .nil, rfl⟩
  | cons request requests ih =>
    obtain ⟨names, meets, served⟩ := exists_meets table request
    obtain ⟨met, later, all⟩ := ih (serve table request).2
    exact ⟨names ++ met, .cons meets later,
      by rw [serveAll, all, served, SymbolTable.insertAll_append]⟩

/-- No symbol is lost or changed, since new ones come last. -/
theorem prefix_serveAll (table : SymbolTable ι) (requests : List Request) :
    table.symbols <+: (serveAll table requests).2.symbols := by
  obtain ⟨met, -, served⟩ := exists_meetAll table requests
  rw [served]
  exact table.prefix_insertAll met

/-- All symbols that have been handed out are those of the table in the end. -/
theorem known_serveAll (table : SymbolTable ι) (requests : List Request) :
    ∀ reply ∈ (serveAll table requests).1, ∀ s ∈ reply.symbols,
      s ∈ (serveAll table requests).2.symbols := by
  induction requests generalizing table with
  | nil => exact fun reply mem => absurd mem List.not_mem_nil
  | cons request requests ih =>
    refine List.forall_mem_cons.mpr ⟨fun s mem => ?_, ih _⟩
    exact (prefix_serveAll _ requests).subset (known_serve table request s mem)

/-- **Numbers are dense, stable and one to one with texts.**  Whatever has been asked of a table
that starts with the keywords, be it that reading failed or not: all symbols that have been handed
out are in the table, and of these two are the same if their numbers are and if their texts are.
The numbers are those up to the size of the table, in the order of the first appearance of the texts
that have been met, with the keywords first, and the interner has the same numbers.  What is
interned next is answered with the symbol of its text, which is the one that the table has if it has
one; looking a text up finds just the symbol that the table has, and changes nothing; and any
request leaves the symbols as they are and appends the distinct new texts that it meets.  In a
source these stand before its end, or before the place that is reported. -/
theorem numbering (requests : List Request) :
    let replies := (serveAll (.initial : SymbolTable ι) requests).1
    let table := (serveAll (.initial : SymbolTable ι) requests).2
    (∀ reply ∈ replies, ∀ s ∈ reply.symbols, s ∈ table.symbols) ∧
    (∀ a ∈ table.symbols, ∀ b ∈ table.symbols,
      (a = b ↔ a.id = b.id) ∧ (a = b ↔ a.name = b.name)) ∧
    Symbol.keywords <+: table.symbols ∧
    table.symbols.map Symbol.id = List.range table.size ∧
    (∃ met, MeetAll requests met ∧ (∀ other, MeetAll requests other → other = met) ∧
      table.names = (Symbol.keywords.map Symbol.name ++ met).eraseDups) ∧
    (∀ name id, Interner.get? table.interner name = some id ↔ ⟨id, name⟩ ∈ table.symbols) ∧
    (∀ name, ∃ s, (serve table (.intern name)).1 = .interned s ∧
      s ∈ (serve table (.intern name)).2.symbols ∧ s.name = name) ∧
    (∀ s ∈ table.symbols, serve table (.intern s.name) = (.interned s, table)) ∧
    (∀ name, ∃ found, serve table (.get name) = (.found found, table) ∧
      ∀ s, found = some s ↔ s ∈ table.symbols ∧ s.name = name) ∧
    (∀ later, table.symbols <+: (serveAll table later).2.symbols) ∧
    (∀ request : Request, ∃ names, request.Meets names ∧
      (∀ other, request.Meets other → other = names) ∧
      (serve table request).2.names =
        table.names ++ (names.removeAll table.names).eraseDups) ∧
    ∀ (goal : Reader.Goal) (source : String),
      (∃ forms, (Reader.read goal source table).1 = .ok forms ∧
        Reader.stop goal source = source.utf8ByteSize) ∨
      ∃ cause, (Reader.read goal source table).1 =
        .error (Reader.Fault.report ⟨cause, Reader.stop goal source⟩ source.toList) := by
  intro replies table
  refine ⟨known_serveAll _ requests, fun a mem b mem' => ⟨?_, ?_⟩, table.keywords_prefix, ?_, ?_,
    fun name id => (table.inStep ⟨id, name⟩).symm, fun name => ?_, fun s mem => ?_, fun name => ?_,
    prefix_serveAll table, fun request => ?_,
    fun goal source => Reader.outcome_read goal source table⟩
  · exact ⟨congrArg Symbol.id, SymbolTable.eq_of_id mem mem'⟩
  · exact ⟨congrArg Symbol.name, SymbolTable.eq_of_name mem mem'⟩
  · exact table.numbered
  · obtain ⟨met, meet, served⟩ := exists_meetAll (.initial : SymbolTable ι) requests
    refine ⟨met, meet, fun other again => again.unique meet, ?_⟩
    rw [show table = _ from served, SymbolTable.names_insertAll_eq_eraseDups,
      SymbolTable.names_initial]
  · obtain ⟨mem, same⟩ := SymbolTable.get?_eq_some_iff.mp (table.get?_insert_self name)
    exact ⟨_, rfl, mem, same⟩
  · rw [serve, SymbolTable.intern_of_some (SymbolTable.get?_eq_some_iff.mpr ⟨mem, rfl⟩)]
  · exact ⟨_, rfl, fun s => SymbolTable.get?_eq_some_iff⟩
  · obtain ⟨names, meets, served⟩ := exists_meets table request
    exact ⟨names, meets, fun other again => again.unique meets,
      by rw [served, SymbolTable.names_insertAll]⟩

/-- What stands before a fault has numbers afterwards, and what stands behind it has none. -/
theorem numbering_strayBracket :
    let table := (serveAll (.initial : SymbolTable) [.readAll "(b 1 a b) c ) d", .get "e"]).2
    table.names = Symbol.keywords.map Symbol.name ++ ["b", "a", "c"] ∧
      serve table (.intern "a") = (.interned ⟨8, "a"⟩, table) ∧
      serve table (.get "d") = (.found none, table) := by
  intro table
  obtain ⟨-, -, -, -, -, -, -, interned, looked, -⟩ :=
    @numbering Numbering _ [.readAll "(b 1 a b) c ) d", .get "e"]
  have names : table.names = Symbol.keywords.map Symbol.name ++ ["b", "a", "c"] := by
    decide +kernel
  have known : (⟨8, "a"⟩ : Symbol) ∈ table.symbols := by decide +kernel
  refine ⟨names, interned ⟨8, "a"⟩ known, ?_⟩
  obtain ⟨found, served, found_iff⟩ := looked "d"
  cases found with
  | none => exact served
  | some s =>
    obtain ⟨known, same⟩ := (found_iff s).mp rfl
    have mem : s.name ∈ table.names := List.mem_map_of_mem known
    rw [same, names] at mem
    exact absurd mem (by decide)

end Request

end GuardedLisp
