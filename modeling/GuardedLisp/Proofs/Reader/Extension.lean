import GuardedLisp.Proofs.Reader.Derivation

/-!
# Going on with a text that cannot be read

The kind of a report tells whether more text can help.  A text that ends too early has a
continuation that completes it, and a fault in the middle of a text stays where it is, whatever
follows.

There are two ends of a text at which a fault is found that more text might have averted.  A comment
may end with the carriage return of an unfinished line end.  And a comma that is nested too deeply
is found to be so at the character after it, unless that is an at sign, for then it is found one
further on.

## Main definitions

* `Reader.Fails`: a text cannot be read because of a given fault
* `Reader.Mode.Fits`: what the reader can be in the middle of at a place in the text
* `Reader.missing`: how many tokens are missing to what is open

## Main results

* `Reader.State.fits_run`: faults show before the end of what has been read
* `Reader.Stack.Derived.exists_closers`: what is open can be closed
* `Reader.readAll_append_of_error`: what the kinds of a report say about continuations
-/

namespace GuardedLisp

namespace Reader

/-- A text cannot be read because of a given fault. -/
def Fails (source : String) (symbols : SymbolTable) (fault : Fault) : Prop :=
  (scan .all source.toList symbols).result = .error fault

theorem State.result_eq_error_iff {s : State} {fault : Fault} :
    s.result = .error fault ↔ s.mode = .failed fault := by
  unfold State.result
  split
  · next found failed => simp [failed]
  · next unfailed => exact ⟨nofun, fun failed => absurd failed (unfailed fault)⟩

theorem fails_iff {source : String} {symbols : SymbolTable} {fault : Fault} :
    Fails source symbols fault ↔ (scan .all source.toList symbols).mode = .failed fault :=
  State.result_eq_error_iff

/-- A text that cannot be read is reported with its fault. -/
theorem readAll_of_fails {source : String} {symbols : SymbolTable} {fault : Fault}
    (h : Fails source symbols fault) :
    readAll source symbols =
      (.error (fault.report source.toList), (scan .all source.toList symbols).symbols) := by
  rw [readAll, read, h]
  rfl

theorem readAll_of_toOption {source : String} {symbols : SymbolTable} {forms : List Datum}
    (h : (readAll source symbols).1.toOption = some forms) :
    readAll source symbols = (.ok forms, (readAll source symbols).2) := by
  refine Prod.ext ?_ rfl
  cases outcome : (readAll source symbols).1 with
  | ok found =>
    rw [outcome] at h
    exact congrArg Except.ok (Option.some.inj h)
  | error report =>
    rw [outcome] at h
    cases h

/-- What cannot be read is reported with the fault that is met, whatever is asked for. -/
theorem exists_fault_of_read {goal : Goal} {source : String} {symbols : SymbolTable}
    {report : ParseError} (h : (read goal source symbols).1 = .error report) :
    ∃ fault, (scan goal source.toList symbols).result = .error fault ∧
      report = fault.report source.toList := by
  simp only [read] at h
  cases found : (scan goal source.toList symbols).result with
  | ok forms =>
    rw [found] at h
    cases h
  | error fault =>
    rw [found] at h
    exact ⟨fault, rfl, (Except.error.inj h).symm⟩

theorem exists_fails_of_error {source : String} {symbols known : SymbolTable} {report : ParseError}
    (h : readAll source symbols = (.error report, known)) :
    ∃ fault, Fails source symbols fault ∧ report = fault.report source.toList :=
  exists_fault_of_read (congrArg Prod.fst h)

/-! ## Where faults show -/

/-- What the reader can be in the middle of at an offset, after a given character if there is one:
what it remembers the place of stands before the offset.  A fault shows there at the latest, and
before that if it is not the start of an operand that is nested too deeply. -/
def Mode.Fits (offset : Nat) (last : Option Char) : Mode → Prop
  | .between | .string _ => True
  | .atom start _ | .escape start _ | .comment start => start < offset
  | .commentReturn start => start < offset ∧ last = some '\r'
  | .comma => last = some ','
  | .failed fault =>
    fault.cause ≠ .endOfText ∧ (fault.offset < offset ∨ fault.offset = offset ∧ last ≠ some ',')

namespace State

section Fits

variable {s : State} {offset place : Nat} {last : Option Char}

theorem fits_fail {cause : Cause} (caused : cause ≠ .endOfText) (earlier : place < offset) :
    (s.fail cause place).mode.Fits offset last := ⟨caused, .inl earlier⟩

theorem fits_starting {next : State} (earlier : place < offset)
    (fits : next.mode.Fits offset last) : (s.starting place next).mode.Fits offset last := by
  unfold starting
  split
  · exact fits_fail (by decide) earlier
  · split
    · exact fits_fail (by decide) earlier
    · split
      · exact fits_fail (by decide) earlier
      · exact fits

theorem fits_refuse (earlier : place < offset) : (s.refuse place).mode.Fits offset last :=
  fits_starting earlier (fits_fail (by decide) earlier)

theorem fits_mark {keyword : Symbol}
    (earlier : place < offset ∨ place = offset ∧ last ≠ some ',') :
    (s.mark keyword place).mode.Fits offset last := by
  simp only [mark]
  split
  · exact ⟨by simp, earlier⟩
  · trivial

theorem fits_close (earlier : place < offset) : (s.close place).mode.Fits offset last := by
  unfold close
  split
  · trivial
  · trivial
  · exact fits_refuse earlier

theorem fits_dot (between : s.mode = .between) (earlier : place < offset) :
    (s.dot place).mode.Fits offset last := by
  unfold dot
  split
  · simp only [between, Mode.Fits]
  · exact fits_refuse earlier

theorem fits_endAtom {start : Nat} {chars : List Char} (earlier : start < offset) :
    (s.endAtom start chars).mode.Fits offset last := by
  unfold endAtom
  split
  · split
    · trivial
    · exact fits_fail (by decide) earlier
  · trivial

theorem fits_between (between : s.mode = .between) (c : Char) :
    (s.between s.offset c).mode.Fits (s.offset + c.utf8Size) (some c) := by
  have earlier : s.offset < s.offset + c.utf8Size := Nat.lt_add_of_pos_right c.utf8Size_pos
  rw [between_eq]
  split_ifs with blank comment closing dot
  · rw [between]
    trivial
  · exact earlier
  · exact fits_close earlier
  · exact fits_dot between earlier
  · refine fits_starting earlier ?_
    unfold opened
    split_ifs with list string quote quasiquote comma atom
    · rw [between]
      trivial
    · trivial
    · subst quote
      exact fits_mark (.inr ⟨rfl, by decide⟩)
    · subst quasiquote
      exact fits_mark (.inr ⟨rfl, by decide⟩)
    · exact congrArg some comma
    · exact earlier
    · exact fits_fail (by decide) earlier

/-- A token that ends before a character leaves the reader between two tokens, or with a fault that
shows before the character. -/
theorem fits_resume (stands : s.offset = offset)
    (h : s.mode = .between ∨ ∃ fault, s.mode = .failed fault ∧
      fault.cause ≠ .endOfText ∧ fault.offset ≤ offset) (c : Char) :
    (s.resume c).mode.Fits (offset + c.utf8Size) (some c) := by
  subst stands
  have earlier : s.offset < s.offset + c.utf8Size := Nat.lt_add_of_pos_right c.utf8Size_pos
  unfold resume
  obtain between | ⟨fault, failed, caused, shown⟩ := h
  · rw [between]
    exact fits_between between c
  · simp only [failed]
    exact ⟨caused, .inl (Nat.lt_of_le_of_lt shown earlier)⟩

/-- **One more character has been read.** -/
theorem fits_step (fits : s.mode.Fits s.offset last) (c : Char) :
    (s.step c).mode.Fits (s.step c).offset (some c) := by
  have earlier : s.offset < s.offset + c.utf8Size := Nat.lt_add_of_pos_right c.utf8Size_pos
  show (s.consume c).mode.Fits (s.offset + c.utf8Size) (some c)
  cases current : s.mode with
  | between =>
    simp only [consume, current]
    exact fits_between current c
  | atom start chars =>
    rw [current] at fits
    simp only [consume, current]
    split
    · exact Nat.lt_trans fits earlier
    · refine fits_resume (offset_endAtom s start chars) ?_ c
      unfold endAtom
      split
      · split
        · exact .inl rfl
        · exact .inr ⟨_, rfl, by simp, Nat.le_of_lt fits⟩
      · exact .inl rfl
  | string chars =>
    simp only [consume, current]
    split_ifs
    · trivial
    · exact earlier
    · trivial
  | escape start chars =>
    rw [current] at fits
    simp only [consume, current]
    split
    · trivial
    · exact fits_fail (by decide) (Nat.lt_trans fits earlier)
  | comma =>
    simp only [consume, current]
    split_ifs with splicing
    · subst splicing
      exact fits_mark (.inr ⟨rfl, by decide⟩)
    · refine fits_resume (offset_mark s .unquote s.offset) ?_ c
      simp only [mark]
      split
      · exact .inr ⟨_, rfl, by simp, Nat.le_refl _⟩
      · exact .inl rfl
  | comment start =>
    rw [current] at fits
    simp only [consume, current]
    split_ifs with feed ret
    · trivial
    · exact ⟨Nat.lt_trans fits earlier, congrArg some ret⟩
    · rw [current]
      exact Nat.lt_trans fits earlier
  | commentReturn start =>
    rw [current] at fits
    simp only [consume, current]
    split
    · trivial
    · exact fits_refuse (Nat.lt_trans fits.1 earlier)
  | failed fault =>
    rw [current] at fits
    obtain ⟨caused, shown⟩ := fits
    simp only [consume, current]
    exact ⟨caused, .inl (by omega)⟩

/-- **Faults show before the end of what has been read**, or just there. -/
theorem fits_run (fits : s.mode.Fits s.offset last) (text : List Char) :
    (s.run text).mode.Fits (s.run text).offset (text.getLast?.or last) := by
  induction text generalizing s last with
  | nil => exact fits
  | cons c text ih =>
    have later := ih (fits_step fits c)
    rwa [List.getLast?_cons, ← Option.or_some, Option.or_assoc, Option.some_or]

theorem fits_initial (symbols : SymbolTable) (text : List Char) :
    ((initial .all symbols).run text).mode.Fits ((initial .all symbols).run text).offset
      text.getLast? := by
  have begun : (initial .all symbols).mode.Fits (initial .all symbols).offset none := trivial
  simpa using fits_run begun text

/-- A token at the end of the text shows its fault there at the latest. -/
theorem cause_of_flush (fits : s.mode.Fits s.offset last) {fault : Fault}
    (h : s.flush.mode = .failed fault) (noString : ∀ chars, s.mode ≠ .string chars)
    (noEscape : ∀ start chars, s.mode ≠ .escape start chars) : fault.cause ≠ .endOfText := by
  -- One byte of room is enough for the fault of a comma, which shows at the end of the text.
  suffices flushed : s.flush.mode.Fits (s.offset + 1) none by
    rw [h] at flushed
    exact flushed.1
  cases current : s.mode with
  | between =>
    simp only [flush, current]
    trivial
  | atom start chars =>
    rw [current] at fits
    simp only [flush, current]
    exact fits_endAtom (Nat.lt_succ_of_lt fits)
  | string chars => exact absurd current (noString chars)
  | escape start chars => exact absurd current (noEscape start chars)
  | comma =>
    simp only [flush, current]
    exact fits_mark (.inl (Nat.lt_succ_self _))
  | comment start =>
    simp only [flush, current]
    trivial
  | commentReturn start =>
    rw [current] at fits
    simp only [flush, current]
    exact fits_refuse (Nat.lt_succ_of_lt fits.1)
  | failed found =>
    rw [current] at fits
    obtain ⟨caused, shown⟩ := fits
    simp only [flush, current]
    exact ⟨caused, .inl (by omega)⟩

end Fits

theorem mode_settle {s : State} {fault : Fault} (h : s.settle.mode = .failed fault) :
    s.mode = .failed fault ∨ fault = ⟨.endOfText, s.offset⟩ := by
  unfold settle at h
  split at h
  · exact .inl h
  · split at h
    · cases h
    · cases h
      exact .inr rfl

/-! ## A text that ends too early -/

/-- Outside strings the token at the end of a text that ends too early is complete, or its own fault
would be reported. -/
theorem unfailed_flush {s : State} {last : Option Char} (fits : s.mode.Fits s.offset last)
    {fault : Fault} (failed : s.finish.mode = .failed fault) (early : fault.cause = .endOfText)
    (noString : ∀ chars, s.mode ≠ .string chars)
    (noEscape : ∀ start chars, s.mode ≠ .escape start chars) : s.flush.Unfailed := by
  intro found flushed
  rw [finish_eq, settle, flushed] at failed
  simp only [flushed, Mode.failed.injEq] at failed
  subst failed
  exact cause_of_flush fits flushed noString noEscape early

/-- A text that ends too early can be gone on with to the end of a token. -/
theorem exists_run_unfailed {s : State} {last : Option Char} (fits : s.mode.Fits s.offset last)
    {fault : Fault} (failed : s.finish.mode = .failed fault) (early : fault.cause = .endOfText) :
    ∃ more, (s.run more).flush.Unfailed := by
  have quote {t : State} {chars : List Char} (current : t.mode = .string chars) :
      (t.run ['"']).flush.Unfailed := by
    have rests :
        (t.run ['"']).Rests (some (t.stack.supply (.string (String.ofList chars.reverse)))) := by
      simp only [run_cons, run_nil, step, consume, current, if_true]
      exact rests_offset.mpr (rests_supply ..)
    rw [flush_of_rests rests]
    exact unfailed_of_rests rests
  by_cases string : ∃ chars, s.mode = .string chars
  · obtain ⟨chars, current⟩ := string
    exact ⟨['"'], quote current⟩
  by_cases escape : ∃ start chars, s.mode = .escape start chars
  · obtain ⟨start, chars, current⟩ := escape
    have escaped : (s.step '"').mode = .string ('"' :: chars) := by
      simp only [step, consume, current]
      rfl
    exact ⟨['"', '"'], quote escaped⟩
  · exact ⟨[], unfailed_flush fits failed early (fun chars current => string ⟨chars, current⟩)
      fun start chars current => escape ⟨start, chars, current⟩⟩

end State

/-- How many tokens are missing to an open expression, if they are as few as can be. -/
def Open.missing : Open → Nat
  | .dotted _ => 2
  | .list _ | .closing _ _ | .marked _ => 1

/-- How many tokens are missing to what is open. -/
def missing : List Open → Nat
  | [] => 0
  | innermost :: outer => innermost.missing + missing outer

/-- A datum leaves no more to be done. -/
theorem missing_place_le (pending : List Open) (datum : Datum) :
    missing (place pending datum).1 ≤ missing pending := by
  induction pending generalizing datum with
  | nil => exact Nat.le_refl _
  | cons innermost outer ih =>
    cases innermost with
    | marked keyword =>
      exact Nat.le_add_left_of_le (ih (Datum.marked keyword datum))
    | list items | dotted items | closing items tail =>
      simp [missing, place, Open.missing]

namespace Stack

/-- An atom may stand where anything may. -/
theorem take_letter {st : Stack} (ready : st.isReady = true) :
    ∃ s next, st.take (.atom ['a']) = some next ∧
      next.pending = (place st.pending (.symbol s)).1 := by
  rw [take, starting_of_isReady ready]
  exact ⟨_, _, rfl, rfl⟩

/-- **What is open can be gone on with**: a list is closed, and a tail or an operand is given. -/
theorem Derived.exists_take {st : Stack} {tokens : List Token} (h : st.Derived tokens)
    (opened : st.pending ≠ []) :
    ∃ lexeme token next, Lexeme lexeme token ∧ st.take token = some next ∧
      missing next.pending < missing st.pending := by
  have letter : Lexeme ['a'] (.atom ['a']) :=
    .atom (List.cons_ne_nil _ _) (List.all_eq_true.mp (by decide))
  obtain ⟨done, before, -, -, opens⟩ := h.read
  cases pending : st.pending with
  | nil => exact absurd pending opened
  | cons innermost outer =>
    rw [pending] at opens
    cases opens with
    | @list items =>
      refine ⟨_, .closing, _, .closing, by rw [Stack.take, pending], ?_⟩
      have fewer := missing_place_le outer (Datum.chain items.reverse .nil)
      simp only [supply, missing, Open.missing]
      omega
    | @closing items tail =>
      refine ⟨_, .closing, _, .closing, by rw [Stack.take, pending], ?_⟩
      have fewer := missing_place_le outer (Datum.chain items.reverse tail)
      simp only [supply, missing, Open.missing]
      omega
    | dotted _ _ nonempty elements =>
      have deep := elements.lt_maxDepth (List.reverse_ne_nil_iff.mpr nonempty)
      obtain ⟨s, next, taken, placed⟩ :=
        take_letter (isReady_of_cons pending rfl (by rwa [pending]))
      refine ⟨_, _, next, letter, taken, ?_⟩
      simp [placed, pending, place, missing, Open.missing]
    | @marked keyword _ _ _ _ deep =>
      obtain ⟨s, next, taken, placed⟩ :=
        take_letter (isReady_of_cons pending rfl (by rwa [pending]))
      refine ⟨_, _, next, letter, taken, ?_⟩
      have fewer := missing_place_le outer (Datum.marked keyword (.symbol s))
      rw [placed, pending, place]
      simp only [missing, Open.missing]
      omega

end Stack

/-- A text that goes on with another one on a new line. -/
theorem Splits.append {first second : List Char} {tokens more : List Token}
    (splits : Splits first tokens) (ends : EndsLine second) (h : Splits second more) :
    Splits (first ++ second) (tokens ++ more) := by
  induction splits with
  | nil => exact h
  | blank blank _ ih => exact .blank blank ih
  | @comment body rest tokens noFeed noReturn endsLine _ ih =>
    rw [List.cons_append, List.append_assoc]
    refine .comment noFeed noReturn ?_ ih
    obtain rfl | feed | line := endsLine
    · exact ends
    · exact .inr (.inl (feed.trans (List.prefix_append ..)))
    · exact .inr (.inr (line.trans (List.prefix_append ..)))
  | @token lexeme rest token tokens written endsToken _ ih =>
    rw [List.append_assoc]
    refine .token written ?_ ih
    cases token with
    | atom chars =>
      intro c head
      cases rest with
      | cons d rest => exact endsToken c head
      | nil =>
        obtain rfl | ⟨after, rfl⟩ | ⟨after, rfl⟩ := ends
        · cases head
        · cases head
          rfl
        · cases head
          rfl
    | opening | closing | dot | mark keyword | string text => trivial

/-- **What is open can be closed**, by a text that starts on a new line. -/
theorem Stack.Derived.exists_closers {st : Stack} {tokens : List Token} (h : st.Derived tokens) :
    ∃ text closers last, EndsLine text ∧ Splits text closers ∧ st.takeAll closers = some last ∧
      last.pending = [] := by
  -- Every token that goes on with what is open leaves fewer tokens missing.
  induction size : missing st.pending using Nat.strongRecOn generalizing st tokens with
  | ind size ih =>
    by_cases closed : st.pending = []
    · exact ⟨[], [], st, .inl rfl, .nil, rfl, closed⟩
    · obtain ⟨lexeme, token, next, written, taken, fewer⟩ := h.exists_take closed
      obtain ⟨text, closers, last, ends, splits, rest, complete⟩ :=
        ih _ (size ▸ fewer) (h.take taken) rfl
      have one : Splits ('\n' :: lexeme) [token] := by
        have ends : token.EndsBefore [] := by cases token <;> first | trivial | nofun
        have alone := Splits.token written ends .nil
        rw [List.append_nil] at alone
        exact .blank rfl alone
      refine ⟨'\n' :: lexeme ++ text, token :: closers, last, .inr (.inl ⟨_, rfl⟩),
        one.append ends splits, ?_, complete⟩
      rw [takeAll_cons, taken, Option.bind_some, rest]

/-- A text without faults leaves a stack that knows its tokens. -/
theorem State.exists_derived {text : List Char} {symbols : SymbolTable}
    (unfailed : ((State.initial .all symbols).run text).flush.Unfailed) :
    ∃ tokens st, Splits text tokens ∧ (Stack.initial .all symbols).takeAll tokens = some st ∧
      st.Derived tokens ∧ ((State.initial .all symbols).run text).flush.Rests (some st) := by
  obtain ⟨tokens, splits⟩ := exists_splits rfl unfailed
  have rests := rests_of_splits splits (s := initial .all symbols) rfl
  obtain ⟨st, taken⟩ := exists_rests_of_unfailed rests unfailed
  rw [taken] at rests
  exact ⟨tokens, st, splits, taken, (Stack.derived_initial .all symbols).takeAll taken, rests⟩

/-- A text that ends too early has a continuation that completes it. -/
theorem exists_readAll_append {source : String} {symbols : SymbolTable} {fault : Fault}
    (h : Fails source symbols fault) (early : fault.cause = .endOfText) :
    ∃ more forms known, readAll (source ++ more) symbols = (.ok forms, known) := by
  have fits := State.fits_initial symbols source.toList
  obtain ⟨first, unfailed⟩ := State.exists_run_unfailed fits (fails_iff.mp h) early
  rw [← State.run_append] at unfailed
  obtain ⟨tokens, st, splits, taken, derived, -⟩ := State.exists_derived unfailed
  obtain ⟨second, closers, last, ends, splitsSecond, takenSecond, complete⟩ :=
    derived.exists_closers
  refine ⟨String.ofList (first ++ second), last.forms.reverse, last.symbols, ?_⟩
  refine read_eq_ok_iff_takeAll.mpr ⟨tokens ++ closers, last, ?_, ?_, ?_, rfl, rfl⟩
  · rw [String.toList_append, String.toList_ofList, ← List.append_assoc]
    exact splits.append ends splitsSecond
  · have both := Stack.takeAll_append (Stack.initial .all symbols) tokens closers
    rw [both]
    exact (congrArg (Option.bind · _) taken).trans takenSecond
  · have goal : last.goal = .all :=
      (Stack.goal_symbols_takeAll takenSecond).1.trans (Stack.goal_symbols_takeAll taken).1
    simp [Stack.isComplete, complete, goal]

/-! ## A fault that stays where it is -/

namespace State

/-- The end of the text finds a fault of its own only if it comes too early, or after an integer
that is too large, a comma that is nested too deeply, or half a line end. -/
theorem cases_of_finish {s : State} {fault : Fault} (h : s.finish.mode = .failed fault) :
    s.mode = .failed fault ∨ fault.cause = .endOfText ∨ fault.cause = .integerRange ∨
      (s.mode = .comma ∧ maxDepth ≤ s.pending.length + 1 ∧ fault = ⟨.tooDeep, s.offset⟩) ∨
      ∃ start, s.mode = .commentReturn start := by
  have settled {t : State} (h : t.settle.mode = .failed fault) :
      t.mode = .failed fault ∨ fault.cause = .endOfText := by
    obtain failed | rfl := mode_settle h
    · exact .inl failed
    · exact .inr rfl
  cases current : s.mode with
  | between | comment start =>
    simp only [finish, current] at h
    obtain failed | early := settled h
    · exact .inl (current ▸ failed)
    · exact .inr (.inl early)
  | atom start chars =>
    simp only [finish, current] at h
    obtain failed | early := settled h
    · unfold endAtom at failed
      split at failed
      · split at failed
        · cases failed
        · cases failed
          exact .inr (.inr (.inl rfl))
      · cases failed
    · exact .inr (.inl early)
  | string chars | escape start chars =>
    simp only [finish, current] at h
    cases h
    exact .inr (.inl rfl)
  | comma =>
    simp only [finish, current] at h
    obtain failed | early := settled h
    · simp only [mark] at failed
      split at failed
      · next deep =>
        cases failed
        exact .inr (.inr (.inr (.inl ⟨rfl, deep, rfl⟩)))
      · cases failed
    · exact .inr (.inl early)
  | commentReturn start => exact .inr (.inr (.inr (.inr ⟨start, rfl⟩)))
  | failed found =>
    simp only [finish, current] at h
    exact .inl h

theorem finish_of_failed {s : State} {fault : Fault} (h : s.mode = .failed fault) :
    s.finish.mode = .failed fault := by
  simp only [finish, h]

/-- A comma that is nested too deeply is a fault whatever follows, one further on if that is an at
sign. -/
theorem mode_run_comma {s : State} (comma : s.mode = .comma)
    (deep : maxDepth ≤ s.pending.length + 1) (more : List Char) :
    (s.run more).finish.mode =
      .failed ⟨.tooDeep, if more.head? = some '@' then s.offset + 1 else s.offset⟩ := by
  have marked (keyword : Symbol) (place : Nat) :
      (s.mark keyword place).mode = .failed ⟨.tooDeep, place⟩ := by
    simp only [mark, List.length_cons, if_pos deep]
    rfl
  cases more with
  | nil =>
    simp only [run_nil, finish, comma, settle, marked]
    rfl
  | cons c more =>
    rw [run_cons]
    refine finish_of_failed (mode_run_of_failed ?_ more)
    simp only [step, consume, comma, List.head?_cons, Option.some.injEq]
    split_ifs
    · exact marked ..
    · simp only [resume, marked]

end State

/-- The fault of a text is still the fault of every longer text, unless it is one that more text
could have averted. -/
theorem exists_fails_append {source : String} {symbols : SymbolTable} {fault : Fault}
    (h : Fails source symbols fault)
    (kind : fault.cause.kind = .invalidSyntax ∨ fault.cause.kind = .tooDeeplyNested)
    (noReturn : source.toList.getLast? ≠ some '\r') (more : String) :
    Fails (source ++ more) symbols
      { fault with offset :=
          if source.toList.getLast? = some ',' ∧ fault.offset = source.utf8ByteSize ∧
            more.toList.head? = some '@' then fault.offset + 1 else fault.offset } := by
  have fits := State.fits_initial symbols source.toList
  have stands : ((State.initial .all symbols).run source.toList).offset = source.utf8ByteSize := by
    rw [State.offset_run, String.ofList_toList]
    exact Nat.zero_add _
  have found := fails_iff.mp h
  rw [fails_iff, scan, String.toList_append, State.run_append]
  rw [scan] at found
  generalize (State.initial .all symbols).run source.toList = s at fits stands found
  obtain failed | early | large | ⟨comma, deep, rfl⟩ | ⟨start, ret⟩ := State.cases_of_finish found
  · rw [failed, stands] at fits
    rw [if_neg]
    · exact State.finish_of_failed (State.mode_run_of_failed failed more.toList)
    · rintro ⟨comma, shown, -⟩
      obtain ⟨-, before | ⟨-, other⟩⟩ := fits
      · omega
      · exact other comma
  · rw [early] at kind
    obtain kind | kind := kind <;> cases kind
  · rw [large] at kind
    obtain kind | kind := kind <;> cases kind
  · -- A comma at the end of the text waits for the character that tells what mark it is.
    rw [comma] at fits
    rw [State.mode_run_comma comma deep]
    simp only [show source.toList.getLast? = some ',' from fits, stands, true_and]
  · rw [ret] at fits
    exact absurd fits.2 noReturn

/-- **The kinds of reports mean what a front end relies on.**  A text that is reported as incomplete
has a continuation with which it can be read.  A text that is reported as wrong or as too deeply
nested stays so whatever follows, with its fault in the same place, if it does not end with a
carriage return; but if it ends with a comma that is followed by an at sign in the longer text, and
whose operand is what is nested too deeply, then the operand starts one byte further on. -/
theorem readAll_append_of_error {source : String} {symbols known : SymbolTable}
    {report : ParseError} (h : readAll source symbols = (.error report, known)) :
    ∃ fault, Fails source symbols fault ∧ report = fault.report source.toList ∧
      (report.kind = .incomplete →
        ∃ more forms later, readAll (source ++ more) symbols = (.ok forms, later)) ∧
      (report.kind = .invalidSyntax ∨ report.kind = .tooDeeplyNested →
        source.toList.getLast? ≠ some '\r' →
        ∀ more : String, ∃ later,
          Fails (source ++ more) symbols later ∧
          (readAll (source ++ more) symbols).1 =
            .error (later.report (source ++ more).toList) ∧
          (later.report (source ++ more).toList).kind = report.kind ∧
          later.offset =
            if source.toList.getLast? = some ',' ∧ fault.offset = source.utf8ByteSize ∧
              more.toList.head? = some '@' then fault.offset + 1 else fault.offset) := by
  obtain ⟨fault, fails, rfl⟩ := exists_fails_of_error h
  refine ⟨fault, fails, rfl, fun early => ?_, fun kind noReturn more => ?_⟩
  · refine exists_readAll_append fails ?_
    cases cause : fault.cause with
    | endOfText => rfl
    | _ =>
      have kind : fault.cause.kind = .incomplete := early
      rw [cause] at kind
      cases kind
  · have later := exists_fails_append fails kind noReturn more
    exact ⟨_, later, by rw [readAll_of_fails later], rfl, rfl⟩

/-- As many quotes as may be nested, and a comma. -/
def deepComma : String := String.ofList (List.replicate 127 '\x27' ++ [','])

theorem fails_deepComma : Fails deepComma .initial ⟨.tooDeep, 128⟩ :=
  fails_iff.mpr (by decide +kernel)

/-- The comma is nested too deeply, and whether an at sign follows decides where that shows. -/
theorem readAll_append_deepComma :
    ∃ report known, readAll deepComma .initial = (.error report, known) ∧
      report.kind = .tooDeeplyNested ∧
      ∀ more : String, ∃ later, Fails (deepComma ++ more) .initial later ∧
        later.offset = if more.toList.head? = some '@' then 129 else 128 := by
  have last : deepComma.toList.getLast? = some ',' := by decide +kernel
  have size : deepComma.utf8ByteSize = 128 := by decide +kernel
  obtain ⟨fault, found, same, -, stays⟩ :=
    readAll_append_of_error (readAll_of_fails fails_deepComma)
  obtain rfl : ⟨.tooDeep, 128⟩ = fault := Except.error.inj (fails_deepComma.symm.trans found)
  refine ⟨_, _, readAll_of_fails fails_deepComma, rfl, fun more => ?_⟩
  obtain ⟨later, longer, -, -, shown⟩ := stays (.inr rfl) (by simp [last]) more
  refine ⟨later, longer, ?_⟩
  rw [shown, last, size]
  simp

/-- So the same fault may show in another place once the text goes on. -/
theorem fails_deepComma_at :
    Fails deepComma .initial ⟨.tooDeep, 128⟩ ∧ deepComma.toList.getLast? ≠ some '\r' ∧
      Fails (deepComma ++ "@x") .initial ⟨.tooDeep, 129⟩ :=
  ⟨fails_deepComma, by decide +kernel, fails_iff.mpr (by decide +kernel)⟩

end Reader

end GuardedLisp
