import GuardedLisp.Proofs.Reader.Beginning
import GuardedLisp.Proofs.Reader.Extension

/-!
# Comments

A comment that is put before a line end changes nothing, whatever it says, if no carriage return is
in the way: one in the middle of the comment is a fault, and so is one that has begun a line end
where the comment starts.

## Main definitions

* `Reader.EndsInString`, `Reader.EndsInReturn`: a text ends in a string, or with a carriage return
  in a comment

## Main results

* `Reader.State.run_commentLine`: what a comment does, up to the end of its line
* `Reader.readAll_comment`: a comment before a line end is like the line end
-/

namespace GuardedLisp

namespace Reader

/-- A text ends inside a string. -/
def EndsInString (text : List Char) : Prop :=
  ∃ tokens left, Begins text tokens left ∧ left ≠ [] ∧ Unclosed left

/-- A text ends with a carriage return in a comment, which only a line feed may follow. -/
def EndsInReturn (text : List Char) : Prop :=
  ∃ tokens body, Begins text tokens (';' :: (body ++ ['\r'])) ∧ '\n' ∉ body ∧ '\r' ∉ body

/-- Without a quote there is no string. -/
theorem not_endsInString {text : List Char} (noQuote : '"' ∉ text) : ¬ EndsInString text := by
  rintro ⟨tokens, left, begins, some, unclosed⟩
  obtain ⟨c, left, rfl⟩ := List.exists_cons_of_ne_nil some
  exact noQuote (begins.suffix.mem (unclosed.eq_quote ▸ List.mem_cons_self))

theorem not_endsInReturn {text : List Char} (noReturn : '\r' ∉ text) : ¬ EndsInReturn text := by
  rintro ⟨tokens, body, begins, -⟩
  exact noReturn (begins.suffix.mem (by simp))

/-! ## Where a line may end -/

/-- A line feed may follow what the reader is in the middle of and end it, unless that is a string
or half a line end. -/
theorem Mode.endsBefore_lineFeed (mode : Mode) (rest : List Char) :
    mode.EndsBefore ('\n' :: rest) ∨
      ((∃ chars, mode = .string chars) ∨ ∃ start chars, mode = .escape start chars) ∨
      ∃ start, mode = .commentReturn start := by
  cases mode with
  | between | failed fault => exact .inl trivial
  | atom start chars =>
    refine .inl ?_
    rintro c ⟨⟩
    rfl
  | comma => exact .inl (by simp [EndsBefore])
  | comment start => exact .inl (.inr (.inl ⟨rest, rfl⟩))
  | string chars => exact .inr (.inl (.inl ⟨chars, rfl⟩))
  | escape start chars => exact .inr (.inl (.inr ⟨start, chars, rfl⟩))
  | commentReturn start => exact .inr (.inr ⟨start, rfl⟩)

namespace State

variable {s : State} {st : Stack}

/-- What neither goes on with an atom nor with a comma completes the token before it. -/
theorem step_of_completes (rests : s.flush.Rests (some st)) {c : Char}
    (noAtom : Atom.isAtomChar c = false) (noAt : c ≠ '@')
    (noComment : ∀ start, s.mode ≠ .comment start) : s.step c = s.flush.step c := by
  have stops : ∀ d ∈ [c].head?, Atom.isAtomChar d = false ∧ d ≠ '@' := by
    rintro d ⟨⟩
    exact ⟨noAtom, noAt⟩
  have ends : s.mode.EndsBefore [c] :=
    endsBefore_of_flush (unfailed_of_rests rests) stops fun start current =>
      absurd current (noComment start)
  exact (flush_step ends).symm

/-- A line end completes the token before it. -/
theorem step_lineFeed (rests : s.flush.Rests (some st)) :
    s.step '\n' = { s.flush with offset := s.offset + 1 } := by
  by_cases comment : ∃ start, s.mode = .comment start
  · obtain ⟨start, current⟩ := comment
    simp only [step, consume, flush, current]
    rfl
  · rw [step_of_completes rests (by decide) (by decide) fun start current =>
      comment ⟨start, current⟩, step_between rests.1, offset_flush]
    rfl

/-- So does the start of a comment. -/
theorem step_semicolon (rests : s.flush.Rests (some st)) :
    ∃ start, s.step ';' = { s.flush with mode := .comment start, offset := s.offset + 1 } := by
  by_cases comment : ∃ start, s.mode = .comment start
  · obtain ⟨start, current⟩ := comment
    refine ⟨start, ?_⟩
    simp only [step, consume, flush, current, show (';' : Char) ≠ '\n' by decide,
      show (';' : Char) ≠ '\r' by decide, if_false]
    rfl
  · refine ⟨s.offset, ?_⟩
    rw [step_of_completes rests (by decide) (by decide) fun start current =>
      comment ⟨start, current⟩, step_between rests.1, offset_flush]
    rfl

/-- A comment goes up to the end of its line, of which a carriage return may be a part. -/
theorem run_commentLine {start : Nat} (current : s.mode = .comment start) {body : List Char}
    (noFeed : '\n' ∉ body) (noReturn : '\r' ∉ body.dropLast) :
    ∃ offset, s.run (body ++ ['\n']) = { s with mode := .between, offset } := by
  by_cases ret : '\r' ∈ body
  · obtain ⟨line, after, rfl, noReturn'⟩ := List.eq_append_cons_of_mem ret
    obtain _ | ⟨c, after⟩ := after
    · rw [List.append_assoc]
      obtain ⟨offset, same⟩ :=
        run_comment current (fun mem => noFeed (List.mem_append_left _ mem)) noReturn'
      rw [run_append, same]
      exact ⟨_, rfl⟩
    · refine absurd ?_ noReturn
      simp
  · obtain ⟨offset, same⟩ := run_comment current noFeed ret
    rw [run_append, same]
    exact ⟨_, rfl⟩

/-- **A comment before a line end is skipped with it**, once the token before it is complete. -/
theorem run_comment_lineFeed (rests : s.flush.Rests (some st)) {body : List Char}
    (noFeed : '\n' ∉ body) (noReturn : '\r' ∉ body.dropLast) :
    ∃ offset, s.run (';' :: (body ++ ['\n'])) = { s.flush with offset } := by
  obtain ⟨start, begun⟩ := step_semicolon rests
  obtain ⟨offset, same⟩ :=
    run_commentLine (s := s.step ';') (by rw [begun]) noFeed noReturn
  refine ⟨offset, ?_⟩
  rw [run_cons, same, begun]
  exact congrArg (fun mode => { s.flush with mode, offset }) rests.1.symm

/-- A carriage return in the middle of a comment is a fault. -/
theorem exists_failed_of_return {start : Nat} (current : s.mode = .comment start)
    {body : List Char} (noFeed : '\n' ∉ body) (ret : '\r' ∈ body.dropLast) (after : List Char) :
    ∃ fault, (s.run (body ++ '\n' :: after)).finish.mode = .failed fault := by
  obtain ⟨line, more, rfl, noReturn⟩ := List.eq_append_cons_of_mem (List.dropLast_subset body ret)
  obtain _ | ⟨c, more⟩ := more
  · rw [List.dropLast_concat] at ret
    exact absurd ret noReturn
  · simp only [List.mem_append, List.mem_cons, not_or] at noFeed
    obtain ⟨noFeed, -, other, -⟩ := noFeed
    rw [List.append_assoc]
    have bare : (c :: more ++ '\n' :: after).head? ≠ some '\n' := by simpa using Ne.symm other
    obtain ⟨place, offset, ran⟩ := finish_run_bareReturn current noFeed noReturn bare
    obtain ⟨fault, failed⟩ := rests_refuse
      { s with mode := .commentReturn start, offset := place } start
    exact ⟨fault, (congrArg State.mode ran).trans failed⟩

/-! ## Where a line may not end -/

/-- A string that goes on at the end of a text. -/
theorem endsInString (table : SymbolTable) (text : List Char)
    (string : (∃ chars, ((initial .all table).run text).mode = .string chars) ∨
      ∃ start chars, ((initial .all table).run text).mode = .escape start chars) :
    EndsInString text := by
  obtain ⟨current, ⟨tokens, begins, -⟩, mode⟩ := traces_initial .all table text []
  rw [List.append_nil] at begins
  obtain ⟨chars, known⟩ | ⟨start, chars, known⟩ := string
  · rw [known] at mode
    obtain ⟨raw, rfl, spelled⟩ := mode
    rw [List.append_nil] at begins
    exact ⟨tokens, _, begins, List.cons_ne_nil _ _, .string spelled⟩
  · rw [known] at mode
    obtain ⟨raw, rfl, spelled, -⟩ := mode
    exact ⟨tokens, _, begins, List.cons_ne_nil _ _, .escape spelled⟩

/-- A comment that goes on at the end of a text, after a carriage return. -/
theorem endsInReturn_iff {table : SymbolTable} {text : List Char}
    (unfailed : ((initial .all table).run text).Unfailed) :
    EndsInReturn text ↔ ∃ start, ((initial .all table).run text).mode = .commentReturn start := by
  constructor
  · rintro ⟨tokens, body, begins, noFeed, noReturn⟩
    obtain ⟨front, rfl⟩ := begins.suffix
    obtain ⟨ends, rests⟩ | ⟨-, after, other⟩ :=
      leaves_of_begins begins (s := initial .all table) rfl
    · rw [run_append, ← flush_run ends (List.cons_ne_nil _ _)] at unfailed ⊢
      generalize ((initial .all table).run front).flush = s at rests unfailed ⊢
      obtain ⟨st, taken⟩ : ∃ st, s.Rests (some st) := by
        cases taken : (initial .all table).stack.takeAll tokens with
        | some st => exact ⟨st, taken ▸ rests⟩
        | none =>
          rw [taken] at rests
          obtain ⟨st, none⟩ := exists_rests_of_unfailed (rests_run rests _) unfailed
          cases none
      have begun := step_comment taken.1
      obtain ⟨offset, same⟩ := run_comment (s := s.step ';') (by rw [begun]) noFeed noReturn
      refine ⟨s.offset, ?_⟩
      rw [run_cons, run_append, same]
      rfl
    · cases other
  · rintro ⟨start, known⟩
    obtain ⟨current, ⟨tokens, begins, -⟩, mode⟩ := traces_initial .all table text []
    rw [List.append_nil] at begins
    rw [known] at mode
    obtain ⟨body, rfl, noFeed, noReturn, -⟩ := mode
    exact ⟨tokens, body, begins, noFeed, noReturn⟩

/-! ## What is read after it -/

/-- Between two tokens it does not matter where the reader stands. -/
theorem finish_run_offset (all : s.goal = .all) (between : s.mode = .between) (offset : Nat)
    (text : List Char) :
    (State.run { s with offset } text).finish =
      (State.run { s with offset := 0 } text).finish.after [] offset := by
  have begun : ({ s with offset } : State) = State.after [] offset { s with offset := 0 } := by
    simp only [after, between, Mode.shift, List.append_nil, Nat.zero_add]
  have begunAll : ({ s with offset := 0 } : State).goal = .all := all
  rw [begun, run_after _ _ begunAll, finish_after _ _ ((goal_run ..).trans begunAll)]

theorem result_after_nil (s : State) (offset : Nat) {forms : List Datum} :
    (s.after [] offset).result = .ok forms ↔ s.result = .ok forms := by
  cases current : s.mode with
  | failed fault =>
    simp only [result, mode_after [] offset current, current, Mode.shift, reduceCtorEq]
  | _ => simp only [result, current, Mode.shift, after, List.append_nil]

end State

theorem readAll_eq_ok_iff_result {source : String} {table known : SymbolTable}
    {forms : List Datum} :
    readAll source table = (.ok forms, known) ↔
      (scan .all source.toList table).result = .ok forms ∧
        (scan .all source.toList table).symbols = known := by
  simp only [readAll, read, Prod.mk.injEq]
  cases (scan .all source.toList table).result <;> simp [Except.mapError]

/-! ## Comments before a line end -/

/-- Where a text that can be read is cut at a line end, the token before the line end is complete,
unless that is a string or half a line end. -/
theorem exists_rests_of_readAll {before after : String} {table known : SymbolTable}
    {forms : List Datum} (read : readAll (before ++ "\n" ++ after) table = (.ok forms, known))
    (outside : ¬ EndsInString before.toList) :
    ((State.initial .all table).run before.toList).Unfailed ∧
    ((∃ st, ((State.initial .all table).run before.toList).flush.Rests (some st)) ∨
      ∃ start, ((State.initial .all table).run before.toList).mode = .commentReturn start) := by
  have read : ((State.initial .all table).run
      (before.toList ++ '\n' :: after.toList)).finish.Unfailed := by
    simpa [scan] using unfailed_of_read read
  have string := State.endsInString table before.toList
  rw [State.run_append] at read
  generalize (State.initial .all table).run before.toList = s at read string
  have later : (s.run ('\n' :: after.toList)).Unfailed :=
    fun fault failed => read fault (State.finish_of_failed failed)
  refine ⟨State.unfailed_of_run later, ?_⟩
  -- A fault of the token before the line end would be a fault of the whole text.
  obtain ends | inside | ret := s.mode.endsBefore_lineFeed after.toList
  · rw [← State.flush_run ends (List.cons_ne_nil _ _)] at later
    obtain ⟨r, rests⟩ := s.exists_rests_flush
    obtain ⟨st, rfl⟩ := State.exists_rests_of_unfailed rests (State.unfailed_of_run later)
    exact .inl ⟨st, rests⟩
  · exact absurd (string inside) outside
  · exact .inr ret

/-- **A comment before a line end is like the line end.**  Let a text be cut at a line end, but not
inside a string, and let it be possible to read it.  If a comment is put before the line end then
what is read is the same, and so are the symbols, whatever the comment says, if it holds no carriage
return but as its last character and if none that a comment ends with is parted from its line feed.
Otherwise the text with the comment is rejected. -/
theorem readAll_comment {before body after : String} {table known : SymbolTable}
    {forms : List Datum} (read : readAll (before ++ "\n" ++ after) table = (.ok forms, known))
    (outside : ¬ EndsInString before.toList) (line : '\n' ∉ body.toList) :
    ('\r' ∉ body.toList.dropLast ∧ ¬ EndsInReturn before.toList →
      readAll (before ++ ";" ++ body ++ "\n" ++ after) table = (.ok forms, known)) ∧
    (¬ ('\r' ∉ body.toList.dropLast ∧ ¬ EndsInReturn before.toList) →
      ∃ report later,
        readAll (before ++ ";" ++ body ++ "\n" ++ after) table = (.error report, later)) := by
  obtain ⟨unfailed, stands⟩ := exists_rests_of_readAll read outside
  have ret := State.endsInReturn_iff unfailed
  have all : ((State.initial .all table).run before.toList).flush.goal = .all := by
    rw [State.goal_flush, State.goal_run]
    rfl
  have source : (before ++ ";" ++ body ++ "\n" ++ after).toList =
      before.toList ++ ';' :: (body.toList ++ '\n' :: after.toList) := by simp
  have plain : (before ++ "\n" ++ after).toList = before.toList ++ '\n' :: after.toList := by simp
  have rejected (fails : ∃ fault, (((State.initial .all table).run before.toList).run
      (';' :: (body.toList ++ '\n' :: after.toList))).finish.mode = .failed fault) :
      ∃ report later,
        readAll (before ++ ";" ++ body ++ "\n" ++ after) table = (.error report, later) := by
    obtain ⟨fault, failed⟩ := fails
    rw [← State.run_append, ← source] at failed
    exact ⟨_, _, readAll_of_fails (fails_iff.mpr failed)⟩
  rw [readAll_eq_ok_iff_result, scan, plain, State.run_append] at read
  rw [readAll_eq_ok_iff_result, scan, source, State.run_append]
  generalize (State.initial .all table).run before.toList = s at *
  obtain ⟨st, rests⟩ | ⟨start, current⟩ := stands
  · have whole : ¬ EndsInReturn before.toList := by
      rw [ret]
      rintro ⟨start, current⟩
      have completed := State.unfailed_of_rests rests
      simp only [State.flush, current] at completed
      exact State.not_unfailed_refuse completed
    refine ⟨fun fine => ?_, fun lost => rejected ?_⟩
    · obtain ⟨offset, skipped⟩ := State.run_comment_lineFeed rests line fine.1
      rw [State.run_cons, State.step_lineFeed rests, State.finish_run_offset all rests.1,
        State.result_after_nil] at read
      rw [List.append_cons, ← List.cons_append, State.run_append, skipped,
        State.finish_run_offset all rests.1, State.result_after_nil]
      exact read
    · have within : '\r' ∈ body.toList.dropLast :=
        Classical.byContradiction fun absent => lost ⟨absent, whole⟩
      obtain ⟨start, begun⟩ := State.step_semicolon rests
      have commented : (s.step ';').mode = .comment start := by rw [begun]
      exact State.exists_failed_of_return commented line within after.toList
  · have within : EndsInReturn before.toList := ret.mpr ⟨start, current⟩
    refine ⟨fun fine => absurd within fine.2, fun _ => rejected ?_⟩
    obtain ⟨fault, failed⟩ := State.rests_refuse s start
    have refused : (s.step ';').mode = .failed fault := by
      simp only [State.step, State.consume, current]
      exact failed
    exact ⟨fault, State.finish_of_failed (State.mode_run_of_failed refused _)⟩

/-- Quotes and brackets mean nothing in a comment, and a carriage return at its end belongs to the
line end. -/
theorem readAll_comment_bracket :
    ∃ forms known,
      readAll ("(a" ++ "\n" ++ "b)") (.initial : SymbolTable) = (.ok forms, known) ∧
      ¬ EndsInString "(a".toList ∧ '\n' ∉ " \"(\r".toList ∧
      readAll ("(a" ++ ";" ++ " \"(\r" ++ "\n" ++ "b)") .initial = (.ok forms, known) := by
  obtain ⟨forms, known, read⟩ : ∃ forms known,
      readAll ("(a" ++ "\n" ++ "b)") (.initial : SymbolTable) = (.ok forms, known) :=
    ⟨[.pair (.symbol ⟨7, "a"⟩) (.pair (.symbol ⟨8, "b"⟩) .nil)], _,
      readAll_of_toOption (by decide +kernel)⟩
  have outside : ¬ EndsInString "(a".toList := not_endsInString (by decide)
  have line : '\n' ∉ " \"(\r".toList := by decide
  have fine : '\r' ∉ " \"(\r".toList.dropLast ∧ ¬ EndsInReturn "(a".toList :=
    ⟨by decide, not_endsInReturn (by decide)⟩
  exact ⟨_, _, read, outside, line, (readAll_comment read outside line).1 fine⟩

/-- A carriage return in the middle of a comment makes a fault of what would be read without the
comment. -/
theorem rejected_loneReturn :
    ∃ forms known report later,
      readAll ("a " ++ "\n" ++ "b") (.initial : SymbolTable) = (.ok forms, known) ∧
      ¬ EndsInString "a ".toList ∧ '\n' ∉ " x\ry".toList ∧
      readAll ("a " ++ ";" ++ " x\ry" ++ "\n" ++ "b") .initial = (.error report, later) := by
  have fails : Fails ("a " ++ ";" ++ " x\ry" ++ "\n" ++ "b") .initial ⟨.misplaced, 2⟩ :=
    fails_iff.mpr (by decide +kernel)
  exact ⟨[.symbol ⟨7, "a"⟩, .symbol ⟨8, "b"⟩], _, _, _,
    readAll_of_toOption (by decide +kernel), not_endsInString (by decide), by decide,
    readAll_of_fails fails⟩

end Reader

end GuardedLisp
