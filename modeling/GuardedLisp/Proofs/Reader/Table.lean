import GuardedLisp.Proofs.Reader.Shift

/-!
# Reading with other symbols

The reader asks for the symbols of texts and never looks at them.  So what it makes of a text, be it
forms or a fault, is the same wherever the symbols come from, but for the symbols in the forms.

In particular it is the same whatever table there is, but for the numbers of the symbols, and the
texts that are met up to the end of the text or the fault are brought into the table there is.

## Main definitions

* `Reader.Translation`: how symbols from one source become those from another
* `Reader.State.through`: the same state with translated symbols
* `Reader.Log`, `Reader.met`: symbols that tell no more than their texts, and the texts that are met
  when a text is read

## Main results

* `Reader.State.run_through`, `Reader.State.finish_through`: the reader does the same with
  translated symbols
* `Reader.symbols_read`: what is met is brought into the table
* `Reader.bare_read`: what is read depends on the table in the numbers of its symbols only
-/

namespace GuardedLisp

namespace Datum

/-- The datum with other symbols. -/
def mapSymbols (f : Symbol → Symbol) : Datum → Datum
  | nil => nil
  | integer value => integer value
  | string text => string text
  | symbol s => symbol (f s)
  | pair first rest => pair (first.mapSymbols f) (rest.mapSymbols f)

variable (f g : Symbol → Symbol)

@[simp] theorem mapSymbols_chain (items : List Datum) (tail : Datum) :
    (chain items tail).mapSymbols f = chain (items.map (mapSymbols f)) (tail.mapSymbols f) := by
  induction items with
  | nil => rfl
  | cons item items ih => exact congrArg (pair _) ih

theorem mapSymbols_id (datum : Datum) : datum.mapSymbols id = datum := by
  induction datum with
  | pair first rest ihFirst ihRest => rw [mapSymbols, ihFirst, ihRest]
  | _ => rfl

end Datum

namespace Reader

/-- The open expression with other symbols. -/
def Open.mapSymbols (f : Symbol → Symbol) : Open → Open
  | .list items => .list (items.map (Datum.mapSymbols f))
  | .dotted items => .dotted (items.map (Datum.mapSymbols f))
  | .closing items tail => .closing (items.map (Datum.mapSymbols f)) (tail.mapSymbols f)
  | .marked keyword => .marked (f keyword)

theorem place_mapSymbols (f : Symbol → Symbol) (pending : List Open) (datum : Datum) :
    place (pending.map (Open.mapSymbols f)) (datum.mapSymbols f) =
      ((place pending datum).1.map (Open.mapSymbols f),
        (place pending datum).2.map (Datum.mapSymbols f)) := by
  induction pending generalizing datum with
  | nil => rfl
  | cons innermost outer ih =>
    cases innermost with
    | marked keyword => exact ih (Datum.marked keyword datum)
    | list items | dotted items | closing items tail => rfl

/-- How symbols from one source become those from another.  Keywords stay as they are. -/
structure Translation (τ σ : Type) [Interns τ] [Interns σ] where
  source : τ → σ
  symbol : Symbol → Symbol
  keyword {s : Symbol} : s ∈ Symbol.keywords → symbol s = s
  intern (symbols : τ) (name : String) : Interns.intern (source symbols) name =
    (symbol (Interns.intern symbols name).1, source (Interns.intern symbols name).2)

namespace State

variable {τ σ : Type} [Interns τ] [Interns σ] (t : Translation τ σ) (s : State τ)

/-- The same state with translated symbols. -/
def through : State σ where
  goal := s.goal
  symbols := t.source s.symbols
  forms := s.forms.map (Datum.mapSymbols t.symbol)
  pending := s.pending.map (Open.mapSymbols t.symbol)
  mode := s.mode
  offset := s.offset

theorem supply_through (datum : Datum) :
    (s.through t).supply (datum.mapSymbols t.symbol) = (s.supply datum).through t := by
  cases taken : (place s.pending datum).2 <;>
    simp [supply, through, place_mapSymbols, taken]

theorem isSated_through : (s.through t).isSated = s.isSated := by
  have forms : (s.through t).forms.isEmpty = s.forms.isEmpty := List.isEmpty_map
  have pending : (s.through t).pending.isEmpty = s.pending.isEmpty := List.isEmpty_map
  rw [isSated, forms, pending]
  rfl

theorem starting_through (place : Nat) (next : State τ) :
    (s.through t).starting place (next.through t) = (s.starting place next).through t := by
  unfold starting
  rw [isSated_through]
  split
  · rfl
  · obtain ⟨goal, symbols, forms, pending, mode, offset⟩ := s
    cases pending with
    | nil => rfl
    | cons innermost outer =>
      cases innermost with
      | closing items tail => rfl
      | list items | dotted items | marked keyword =>
        show (if maxDepth ≤ (outer.map _).length + 1 then _ else _) =
          through t (if maxDepth ≤ outer.length + 1 then _ else _)
        rw [List.length_map]
        split <;> rfl

theorem refuse_through (place : Nat) :
    (s.through t).refuse place = (s.refuse place).through t :=
  starting_through t s place (s.fail .misplaced place)

theorem mark_through {keyword : Symbol} (known : keyword ∈ Symbol.keywords) (place : Nat) :
    (s.through t).mark keyword place = (s.mark keyword place).through t := by
  simp only [mark, through, List.length_cons, List.length_map]
  split <;> simp [fail, Open.mapSymbols, t.keyword known]

theorem close_through (place : Nat) :
    (s.through t).close place = (s.close place).through t := by
  have refused := refuse_through t s place
  obtain ⟨goal, symbols, forms, pending, mode, offset⟩ := s
  cases pending with
  | nil => exact refused
  | cons innermost outer =>
    cases innermost with
    | list items =>
      simp only [close, through, List.map_cons, Open.mapSymbols]
      have closed := supply_through t ⟨goal, symbols, forms, outer, mode, offset⟩
        (Datum.chain items.reverse .nil)
      simpa [through, Datum.mapSymbols] using closed
    | closing items tail =>
      simp only [close, through, List.map_cons, Open.mapSymbols]
      have closed := supply_through t ⟨goal, symbols, forms, outer, mode, offset⟩
        (Datum.chain items.reverse tail)
      simpa [through] using closed
    | dotted items | marked keyword => exact refused

theorem dot_through (place : Nat) : (s.through t).dot place = (s.dot place).through t := by
  have refused := refuse_through t s place
  obtain ⟨goal, symbols, forms, pending, mode, offset⟩ := s
  cases pending with
  | nil => exact refused
  | cons innermost outer =>
    cases innermost with
    | list items =>
      cases items with
      | nil => exact refused
      | cons item items => rfl
    | dotted items | closing items tail | marked keyword => exact refused

theorem opened_through (place : Nat) (c : Char) :
    (s.through t).opened place c = (s.opened place c).through t := by
  unfold opened
  rw [mark_through t s (by decide), mark_through t s (by decide)]
  split_ifs <;> rfl

theorem between_through (place : Nat) (c : Char) :
    (s.through t).between place c = (s.between place c).through t := by
  rw [between_eq, between_eq, opened_through, close_through, dot_through, starting_through]
  split_ifs <;> rfl

/-- Only an atom asks for a symbol. -/
theorem endAtom_through (start : Nat) (chars : List Char) :
    (s.through t).endAtom start chars = (s.endAtom start chars).through t := by
  unfold endAtom
  split
  · split
    · exact supply_through t s (.integer _)
    · rfl
  · rw [show (s.through t).symbols = t.source s.symbols from rfl, t.intern]
    exact supply_through t { s with symbols := _ } (.symbol _)

theorem resume_through (c : Char) : (s.through t).resume c = (s.resume c).through t := by
  have mode : (s.through t).mode = s.mode := rfl
  unfold resume
  rw [mode]
  split
  · rfl
  · exact between_through t s s.offset c

theorem consume_through (c : Char) : (s.through t).consume c = (s.consume c).through t := by
  have mode : (s.through t).mode = s.mode := rfl
  have place : (s.through t).offset = s.offset := rfl
  unfold consume
  rw [mode, place]
  split
  · exact between_through t s s.offset c
  · rw [endAtom_through, resume_through]
    split <;> rfl
  · split_ifs
    · exact supply_through t s (.string _)
    · rfl
    · rfl
  · split <;> rfl
  · rw [mark_through t s (by decide), mark_through t s (by decide), resume_through]
    split_ifs <;> rfl
  · split_ifs <;> rfl
  · rw [refuse_through]
    split_ifs <;> rfl
  · rfl

theorem step_through (c : Char) : (s.through t).step c = (s.step c).through t := by
  simp only [step, consume_through]
  rfl

/-- The reader does the same with translated symbols. -/
theorem run_through (text : List Char) : (s.through t).run text = (s.run text).through t := by
  induction text generalizing s with
  | nil => rfl
  | cons c text ih => rw [run_cons, run_cons, step_through, ih]

theorem settle_through : (s.through t).settle = s.settle.through t := by
  obtain ⟨goal, symbols, forms, pending, mode, offset⟩ := s
  cases mode with
  | failed fault => rfl
  | _ =>
    show (if (pending.map _).isEmpty && (goal = .all || !(forms.map _).isEmpty) then _ else _) =
      through t (if pending.isEmpty && (goal = .all || !forms.isEmpty) then _ else _)
    rw [List.isEmpty_map, List.isEmpty_map]
    split <;> rfl

theorem finish_through : (s.through t).finish = s.finish.through t := by
  have mode : (s.through t).mode = s.mode := rfl
  have place : (s.through t).offset = s.offset := rfl
  unfold finish
  rw [mode, place]
  split
  · rw [endAtom_through, settle_through]
  · rw [mark_through t s (by decide), settle_through]
  · rfl
  · rfl
  · exact refuse_through t s _
  · exact settle_through t s
  · exact settle_through t s
  · rfl

theorem result_through :
    (s.through t).result = s.result.map (List.map (Datum.mapSymbols t.symbol)) := by
  have mode : (s.through t).mode = s.mode := rfl
  unfold result
  rw [mode]
  split
  · rfl
  · exact congrArg Except.ok List.map_reverse.symm

end State

theorem scan_through {τ σ : Type} [Interns τ] [Interns σ] (t : Translation τ σ) (goal : Goal)
    (text : List Char) (symbols : τ) :
    scan goal text (t.source symbols) = (scan goal text symbols).through t := by
  have start : State.initial goal (t.source symbols) = (State.initial goal symbols).through t := rfl
  rw [scan, start, State.run_through, State.finish_through, scan]

theorem read_through {τ σ : Type} [Interns τ] [Interns σ] (t : Translation τ σ) (goal : Goal)
    (source : String) (symbols : τ) :
    read goal source (t.source symbols) =
      ((read goal source symbols).1.map (List.map (Datum.mapSymbols t.symbol)),
        t.source (read goal source symbols).2) := by
  simp only [read, scan_through, State.result_through]
  cases (scan goal source.toList symbols).result <;> rfl

/-! ## Reading with any table -/

/-- A symbol that tells no more than its text, unless it is a keyword. -/
def bare (name : String) : Symbol :=
  (Symbol.keywords.find? fun keyword => keyword.name = name).getD ⟨0, name⟩

theorem bare_of_keyword {s : Symbol} (keyword : s ∈ Symbol.keywords) : bare s.name = s := by
  revert s
  decide

theorem name_bare (name : String) : (bare name).name = name := by
  unfold bare
  cases found : Symbol.keywords.find? fun keyword => keyword.name = name with
  | none => rfl
  | some keyword => exact of_decide_eq_true (List.find?_some found :)

/-- The texts that have been met. -/
structure Log where
  names : List String

instance : Interns Log := ⟨fun log name => (bare name, ⟨log.names ++ [name]⟩)⟩

/-- The texts that have been met since there was a given table. -/
structure LogSince {ι : Type} [Interner ι] (table : SymbolTable ι) where
  names : List String

namespace LogSince

variable {ι : Type} [Interner ι] {table : SymbolTable ι}

instance : Interns (LogSince table) :=
  ⟨fun log name => (((table.insertAll log.names).intern name).1, ⟨log.names ++ [name]⟩)⟩

/-- Nothing has been met. -/
def start (table : SymbolTable ι) : LogSince table := ⟨[]⟩

/-- The symbols are those of the table with what has been met in it. -/
def toTable : Translation (LogSince table) (SymbolTable ι) where
  source log := table.insertAll log.names
  symbol := id
  keyword _ := rfl
  intern log name := Prod.ext rfl (SymbolTable.insertAll_append table log.names [name]).symm

/-- The symbols without their numbers tell what has been met. -/
def toLog : Translation (LogSince table) Log where
  source log := ⟨log.names⟩
  symbol s := bare s.name
  keyword := bare_of_keyword
  intern _ name := Prod.ext (congrArg bare (SymbolTable.name_intern _ name).symm) rfl

end LogSince

/-- The texts that are met when a text is read, as far as it can be. -/
def met (goal : Goal) (source : String) : List String := (read goal source (Log.mk [])).2.names

section

variable {ι : Type} [Interner ι] (goal : Goal)

/-- What the reader stands in does not depend on the table. -/
theorem mode_scan (text : List Char) (table : SymbolTable ι) :
    (scan goal text table).mode = (scan goal text (Log.mk [])).mode := by
  have since := scan_through LogSince.toTable goal text (.start table)
  have met := scan_through LogSince.toLog goal text (.start table)
  exact (congrArg State.mode since).trans (congrArg State.mode met).symm

/-- **What is met is brought into the table**, whatever table it is. -/
theorem symbols_read (source : String) (table : SymbolTable ι) :
    (read goal source table).2 = table.insertAll (met goal source) := by
  have since := read_through LogSince.toTable goal source (.start table)
  have logged := read_through LogSince.toLog goal source (.start table)
  have same : met goal source = (read goal source (LogSince.start table)).2.names :=
    congrArg (fun read => read.2.names) logged
  rw [same]
  exact congrArg Prod.snd since

/-- **What is read does not depend on the table**, but for the numbers of the symbols. -/
theorem bare_read (source : String) (table : SymbolTable ι) :
    (read goal source table).1.map (List.map (Datum.mapSymbols fun s => bare s.name)) =
      (read goal source (Log.mk [])).1 := by
  have since := read_through LogSince.toTable goal source (.start table)
  have logged := read_through LogSince.toLog goal source (.start table)
  have same : (read goal source table).1 = (read goal source (LogSince.start table)).1 := by
    refine (congrArg Prod.fst since).trans ?_
    show Except.map (List.map (Datum.mapSymbols id)) _ = _
    rw [show Datum.mapSymbols id = id from funext Datum.mapSymbols_id, List.map_id_fun]
    cases (read goal source (LogSince.start table)).1 <;> rfl
  rw [same]
  exact (congrArg Prod.fst logged).symm

end

end Reader

end GuardedLisp
