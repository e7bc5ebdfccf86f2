import GuardedLisp.Proofs.Reader.Ends
import Mathlib.Tactic.Set
import Mathlib.Tactic.SplitIfs

/-!
# Reading line by line

A text may be cut at its line ends, and the lines be gathered until the brackets balance.  Every
text that is released then reads as it does in its place in the whole text, and nothing is left
over, provided that the whole text can be read and no mark is cut off from its operand.

## Main definitions

* `Reader.ReadInTurn`: texts that can be read one after another, with the data that they hold
* `LineGatherer.release`: the texts that are released while lines are taken
* `LineGatherer.openings`: the lines that are taken while none is kept

## Main results

* `Reader.readAll_of_unfailed`: a text can be read if the reader meets no fault up to its end
* `LineGatherer.yields_of_finish`: gathering lines agrees with reading
-/

namespace GuardedLisp

namespace Reader

/-! ## Texts in turn -/

/-- The texts can be read one after another, each with the symbols that the one before it has left.
They hold the given data, and leave the last of the symbol tables. -/
inductive ReadInTurn : SymbolTable → List String → List (List Datum) → SymbolTable → Prop
  | nil (symbols : SymbolTable) : ReadInTurn symbols [] [] symbols
  | cons {before between after : SymbolTable} {source : String} {sources : List String}
      {data : List Datum} {groups : List (List Datum)} :
      readAll source before = (.ok data, between) →
      ReadInTurn between sources groups after →
      ReadInTurn before (source :: sources) (data :: groups) after

theorem ReadInTurn.append {before between after : SymbolTable} {sources more : List String}
    {groups others : List (List Datum)} (first : ReadInTurn before sources groups between)
    (second : ReadInTurn between more others after) :
    ReadInTurn before (sources ++ more) (groups ++ others) after := by
  induction first with
  | nil => exact second
  | cons read _ ih => exact .cons read (ih second)

/-- A text can be read if the reader meets no fault up to its end. -/
theorem readAll_of_unfailed {source : String} {symbols : SymbolTable}
    (unfailed : (scan .all source.toList symbols).Unfailed) :
    readAll source symbols = (.ok (scan .all source.toList symbols).forms.reverse,
      (scan .all source.toList symbols).symbols) := by
  have found : (scan .all source.toList symbols).result =
      .ok (scan .all source.toList symbols).forms.reverse := by
    unfold State.result
    split
    · next fault failed => exact absurd failed (unfailed fault)
    · rfl
  simp only [readAll, read, found]
  rfl

theorem unfailed_of_readAll {source : String} {symbols : SymbolTable}
    (accepted : (readAll source symbols).1.isOk = true) :
    (scan .all source.toList symbols).Unfailed := by
  intro fault failed
  simp only [readAll, read, State.result, failed] at accepted
  cases accepted

theorem readAll_of_finish {text : List Char} {symbols : SymbolTable}
    (between : ((State.initial .all symbols).run text).finish.mode = .between) :
    readAll (String.ofList text) symbols =
      (.ok ((State.initial .all symbols).run text).finish.forms.reverse,
        ((State.initial .all symbols).run text).finish.symbols) := by
  have unfailed : (scan .all (String.ofList text).toList symbols).Unfailed := by
    rw [String.toList_ofList, scan]
    intro fault failed
    cases between.symm.trans failed
  rw [readAll_of_unfailed unfailed, String.toList_ofList]
  rfl

end Reader

/-! ## Lines -/

/-- Every text is a line, or a line before a line feed and a text. -/
theorem lines_induction {motive : List Char → Prop}
    (last : ∀ line, '\n' ∉ line → motive line)
    (next : ∀ line rest, '\n' ∉ line → motive rest → motive (line ++ '\n' :: rest))
    (text : List Char) : motive text := by
  induction size : text.length using Nat.strongRecOn generalizing text with
  | ind size ih =>
    by_cases feed : '\n' ∈ text
    · obtain ⟨line, rest, rfl, noFeed⟩ := List.eq_append_cons_of_mem feed
      refine next line rest noFeed (ih rest.length ?_ rest rfl)
      simp only [← size, List.length_append, List.length_cons]
      omega
    · exact last text feed

namespace LineGatherer

open Reader

/-- What comes before the next line in the text that is gathered. -/
def lead (g : LineGatherer) : List Char := if g.buffer.isEmpty then [] else g.buffer ++ ['\n']

/-- The texts that are released while lines are taken, and what is kept in the end. -/
def release (g : LineGatherer) : List (List Char) → List (List Char) × LineGatherer
  | [] => ([], g)
  | line :: lines =>
    let (text, g) := g.push line
    let (texts, g) := g.release lines
    (text.toList ++ texts, g)

/-- The lines that are taken while none is kept. -/
def openings (g : LineGatherer) : List (List Char) → List (List Char)
  | [] => []
  | line :: lines => (if g.isPending then [] else [line]) ++ (g.push line).2.openings lines

/-- The reader when it has read what is kept. -/
def reading (g : LineGatherer) (symbols : SymbolTable) : State :=
  (State.initial .all symbols).run g.lead

theorem goal_reading (g : LineGatherer) (symbols : SymbolTable) :
    (g.reading symbols).goal = .all := State.goal_run _ g.lead

/-- The reader goes on with the next line as if all were one text. -/
theorem run_reading (g : LineGatherer) (symbols : SymbolTable) (line : List Char) :
    (g.reading symbols).run line = (State.initial .all symbols).run (g.lead ++ line) :=
  (State.run_append ..).symm

/-- The reader sees what is kept as the gatherer does. -/
def Follows (g : LineGatherer) (symbols : SymbolTable) : Prop :=
  (g.reading symbols).Shows (if g.inString then .string else .code) g.depth

/-- What comes of lines if gathering them agrees with reading. -/
structure Yields (g : LineGatherer) (lines : List (List Char)) (symbols : SymbolTable)
    (forms : List Datum) (last : State) : Prop where
  /-- Nothing is kept in the end. -/
  kept : (g.release lines).2 = {}
  /-- The texts that are released hold the forms that a reader has found in the end, but for those
  that it had found before. -/
  read : ∃ groups,
    ReadInTurn symbols ((g.release lines).1.map String.ofList) groups last.symbols ∧
      last.forms.reverse = forms.reverse ++ groups.flatten
  /-- Every line that begins a text can be begun to be read. -/
  begun : ∀ line ∈ g.openings lines,
    ∃ symbols : SymbolTable, ((State.initial .all symbols).run line).Unfailed

/-- A text that is kept goes on with the next line. -/
theorem push_of_open {g : LineGatherer} {line : List Char} {mode : LineMode} {balance : Int}
    (scan : (if g.inString then LineMode.string else .code).scan line = (mode, balance))
    (isOpen : 0 < g.depth + balance ∨ mode.isOpen = true) :
    g.push line = (none, ⟨g.lead ++ line, g.depth + balance, mode.isOpen⟩) := by
  simp only [push, lead, scan]
  rw [if_pos isOpen]

/-- A text that is complete is released, unless it is blank. -/
theorem push_of_closed {g : LineGatherer} {line : List Char} {mode : LineMode} {balance : Int}
    (scan : (if g.inString then LineMode.string else .code).scan line = (mode, balance))
    (closed : ¬ (0 < g.depth + balance ∨ mode.isOpen = true)) :
    g.push line =
      (if (g.lead ++ line).all isWhiteSpace then none else some (g.lead ++ line), {}) := by
  simp only [push, lead, scan]
  rw [if_neg closed]
  split_ifs <;> rfl

/-- A complete text reads as it does in its place. -/
theorem push_reads {g : LineGatherer} {symbols : SymbolTable} {line : List Char} {mode : LineMode}
    {balance : Int}
    (scan : (if g.inString then LineMode.string else .code).scan line = (mode, balance))
    (none : g.depth + balance = 0) (closed : mode.isOpen = false)
    (unfailed : ((g.reading symbols).run line).Unfailed)
    (between : ((g.reading symbols).run line).finish.mode = .between) :
    (g.push line).2 = {} ∧ ∃ groups,
      ReadInTurn symbols ((g.push line).1.toList.map String.ofList) groups
        ((g.reading symbols).run line).finish.symbols ∧
      groups.flatten = ((g.reading symbols).run line).finish.forms.reverse := by
  rw [push_of_closed scan (by simp [none, closed])]
  refine ⟨rfl, ?_⟩
  rw [run_reading] at unfailed between ⊢
  by_cases blank : (g.lead ++ line).all isWhiteSpace = true
  · obtain ⟨nothing, same⟩ := State.finish_blank blank unfailed
    rw [if_pos blank, same, nothing]
    exact ⟨[], .nil symbols, rfl⟩
  · rw [if_neg blank]
    exact ⟨[_], .cons (readAll_of_finish between) (.nil _), by simp⟩

/-- A gatherer that keeps a text goes on with the reader at the start of the next line. -/
theorem reading_of_kept {g : LineGatherer} {line : List Char} (kept : g.lead ++ line ≠ [])
    (depth : Int) (inString : Bool) (symbols : SymbolTable) :
    reading ⟨g.lead ++ line, depth, inString⟩ symbols =
      ((g.reading symbols).run line).step '\n' := by
  have lead : lead ⟨g.lead ++ line, depth, inString⟩ = g.lead ++ line ++ ['\n'] :=
    if_neg (mt List.isEmpty_iff.mp kept)
  rw [reading, lead, State.run_append, State.run_append]
  rfl

theorem reading_of_open {g : LineGatherer} {symbols : SymbolTable} {line : List Char}
    {mode : LineMode} {depth : Int} (shows : ((g.reading symbols).run line).Shows mode depth)
    (isOpen : 0 < depth ∨ mode.isOpen = true) :
    reading ⟨g.lead ++ line, depth, mode.isOpen⟩ symbols =
      ((g.reading symbols).run line).step '\n' := by
  refine reading_of_kept (fun empty => ?_) depth mode.isOpen symbols
  rw [run_reading, empty] at shows
  obtain ⟨seen, rfl⟩ := shows
  obtain rfl : LineMode.code = mode := State.line_eq seen rfl rfl
  simp [State.lists, State.initial, LineMode.isOpen] at isOpen

/-- The reader starts with the next line if nothing is kept. -/
theorem begun_openings {g : LineGatherer} {symbols : SymbolTable} {line : List Char}
    {lines : List (List Char)} (begun : ((g.reading symbols).run line).Unfailed)
    (rest : ∀ next ∈ (g.push line).2.openings lines,
      ∃ symbols : SymbolTable, ((State.initial .all symbols).run next).Unfailed) :
    ∀ next ∈ g.openings (line :: lines),
      ∃ symbols : SymbolTable, ((State.initial .all symbols).run next).Unfailed := by
  intro next mem
  obtain first | later := List.mem_append.mp mem
  · split at first
    · cases first
    · next empty =>
      obtain rfl := List.mem_singleton.mp first
      simp only [isPending, Bool.not_eq_true, Bool.not_eq_false'] at empty
      rw [reading, lead, if_pos empty] at begun
      exact ⟨symbols, begun⟩
  · exact rest next later

theorem yields_of_open {g : LineGatherer} {line : List Char} {lines : List (List Char)}
    {mode : LineMode} {balance : Int} {symbols : SymbolTable} {forms : List Datum} {last : State}
    (scan : (if g.inString then LineMode.string else .code).scan line = (mode, balance))
    (isOpen : 0 < g.depth + balance ∨ mode.isOpen = true)
    (begun : ((g.reading symbols).run line).Unfailed)
    (rest : Yields ⟨g.lead ++ line, g.depth + balance, mode.isOpen⟩ lines symbols forms last) :
    g.Yields (line :: lines) symbols forms last := by
  have pushed := push_of_open scan isOpen
  constructor
  · rw [release, pushed]
    exact rest.kept
  · rw [release, pushed]
    exact rest.read
  · exact begun_openings begun (pushed ▸ rest.begun)

theorem yields_of_closed {g : LineGatherer} {line : List Char} {lines : List (List Char)}
    {symbols : SymbolTable} {forms : List Datum} {s last : State}
    (begun : ((g.reading symbols).run line).Unfailed)
    (pushed : (g.push line).2 = {} ∧ ∃ groups,
      ReadInTurn symbols ((g.push line).1.toList.map String.ofList) groups s.symbols ∧
      groups.flatten = s.forms.reverse)
    (rest : Yields {} lines s.symbols (s.forms ++ forms) last) :
    g.Yields (line :: lines) symbols forms last := by
  obtain ⟨kept, groups, read, data⟩ := pushed
  obtain ⟨others, readRest, dataRest⟩ := rest.read
  constructor
  · simp only [release, kept]
    exact rest.kept
  · simp only [release, kept]
    refine ⟨groups ++ others, ?_, ?_⟩
    · rw [List.map_append]
      exact read.append readRest
    · rw [dataRest, List.flatten_append, data, List.reverse_append, List.append_assoc]
  · exact begun_openings begun (kept ▸ rest.begun)

/-- **Gathering lines agrees with reading.**  If the reader goes on, after given forms, from what
has been gathered and meets no fault up to the end of a text, then the texts that are released hold
the forms that it finds, and nothing is kept. -/
theorem yields_of_finish (text : List Char) (noReturn : '\r' ∉ text) (g : LineGatherer)
    (symbols : SymbolTable) (forms : List Datum) (offset : Nat) (follows : g.Follows symbols)
    (finished : (((g.reading symbols).after forms offset).run text).finish.Unfailed)
    (settled : ∀ before after, text = before ++ '\n' :: after →
      ((g.reading symbols).run before).awaitsOperand = false) :
    g.Yields (text.splitOn '\n') symbols forms
      (((g.reading symbols).after forms offset).run text).finish := by
  induction text using lines_induction generalizing g symbols forms offset with
  | last line noFeed =>
    have all := g.goal_reading symbols
    have all' := (State.goal_run (g.reading symbols) line).trans all
    rw [State.run_after forms offset all, State.finish_after forms offset all'] at finished ⊢
    have finished := State.unfailed_after.mp finished
    have begun := State.unfailed_of_finish finished
    have shows := State.shows_run follows noFeed noReturn begun
    obtain ⟨none, closed, between, -⟩ := State.closed_of_finish all' shows finished
    rw [List.splitOn_eq_singleton noFeed]
    refine yields_of_closed begun (push_reads rfl none closed begun between) ?_
    exact ⟨rfl, ⟨[], .nil _, by simp [State.after]⟩, nofun⟩
  | next line rest noFeed ih =>
    have noReturn' : '\r' ∉ line ∧ '\r' ∉ rest := by
      simpa [List.mem_append] using noReturn
    have all := g.goal_reading symbols
    have all' := (State.goal_run (g.reading symbols) line).trans all
    set s := (g.reading symbols).run line
    have ran : ((g.reading symbols).after forms offset).run (line ++ '\n' :: rest) =
        ((s.step '\n').after forms offset).run rest := by
      rw [State.run_append, State.run_after forms offset all, State.run_cons,
        State.step_after forms offset all']
    have later (before after : List Char) (same : rest = before ++ '\n' :: after) :
        ((s.step '\n').run before).awaitsOperand = false := by
      have here := settled (line ++ '\n' :: before) after (by simp [same])
      rwa [State.run_append, State.run_cons] at here
    rw [ran] at finished ⊢
    have ended : (s.step '\n').Unfailed :=
      State.unfailed_after.mp (State.unfailed_of_run (State.unfailed_of_finish finished))
    have begun := State.unfailed_of_step ended
    have shows := State.shows_run follows noFeed noReturn'.1 begun
    rw [List.splitOn_append_cons_self_of_not_mem noFeed]
    generalize scan : (if g.inString then LineMode.string else .code).scan line = scanned at shows
    obtain ⟨mode, balance⟩ := scanned
    by_cases isOpen : 0 < g.depth + balance ∨ mode.isOpen = true
    · have goesOn := reading_of_open shows isOpen
      refine yields_of_open scan isOpen begun ?_
      rw [← goesOn] at finished later ended ⊢
      refine ih noReturn'.2 _ symbols forms offset ?_ finished later
      rw [Follows, goesOn]
      exact State.shows_lineFeed shows (goesOn ▸ ended)
    · simp only [not_or, Int.not_lt, Bool.not_eq_true] at isOpen
      have none : g.depth + balance = 0 := by
        have counted := shows.depth
        dsimp only at counted
        omega
      rw [none] at shows
      obtain ⟨same, between, complete⟩ :=
        State.consume_lineFeed_of_closed all' shows isOpen.2 (settled line rest rfl) ended
      refine yields_of_closed begun (push_reads scan none isOpen.2 begun between) ?_
      have goal : s.finish.goal = .all := by
        rw [← same]
        exact (State.goal_step s '\n').trans all'
      have next : s.step '\n' = (reading {} s.finish.symbols).after s.finish.forms
          (s.offset + '\n'.utf8Size) := by
        rw [State.step, same]
        exact State.eq_initial_after (s := { s.finish with offset := _ }) goal between complete
      rw [next, State.after_after] at finished ⊢
      refine ih noReturn'.2 {} _ _ _ ⟨rfl, rfl⟩ finished fun before after same => ?_
      have here := later before after same
      rwa [next, State.run_after _ _ rfl, State.awaitsOperand_after] at here

end LineGatherer

end GuardedLisp
