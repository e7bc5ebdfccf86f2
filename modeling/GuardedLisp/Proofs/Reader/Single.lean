import GuardedLisp.Proofs.Reader.Extension
import GuardedLisp.Proofs.Reader.InStep
import GuardedLisp.Proofs.Reader.Interning
import GuardedLisp.Proofs.Reader.Printing

/-!
# Texts for one form

Where one form is asked for, the reader refuses all that follows the first one but blanks and
comments.  If all forms are asked for it goes on.  So what is read for one form can be told from
what is read for all.

## Main definitions

* `Reader.trailing`, `Reader.Trails`: a text is refused for what follows its first form

## Main results

* `Reader.State.finish_run_of_isSated`: after its form a reader for one refuses what is not skipped
* `Reader.FirstForm.readOne_eq`, `Reader.FirstForm.scan_all_eq`: what both make of a text with a
  first form
* `Reader.fails_of_no_form`: both fail alike if there is none
* `Reader.readOne_agrees`: what is read for one form, as what is read for all tells it
-/

namespace GuardedLisp

namespace Reader

namespace State

/-! ## After the form -/

theorem refuse_of_isSated {s : State} (sated : s.isSated = true) (place : Nat) :
    s.refuse place = s.fail .trailing place := by
  rw [refuse, starting, if_pos sated]

/-- A reader that has found the form that it looks for refuses what is neither blank nor the start
of a comment. -/
theorem between_of_isSated {s : State} (sated : s.isSated = true) (place : Nat) {c : Char}
    (noBlank : isBlank c = false) (noComment : c ≠ ';') :
    s.between place c = s.fail .trailing place := by
  have outside : s.pending = [] := by
    simp only [isSated, Bool.and_eq_true, List.isEmpty_iff] at sated
    exact sated.1.2
  rw [between_eq, noBlank, if_neg Bool.false_ne_true, if_neg noComment]
  split_ifs
  · simp only [close, outside, refuse_of_isSated sated]
  · simp only [dot, outside, refuse_of_isSated sated]
  · rw [starting, if_pos sated]

/-- **After its form a reader for one refuses what is not skipped.** -/
theorem finish_run_of_isSated {s : State} (sated : s.isSated = true) (between : s.mode = .between)
    {rest : List Char} (bare : Bare rest) (some : rest ≠ []) :
    ∃ offset, (s.run rest).finish = { s.fail .trailing s.offset with offset } := by
  obtain ⟨c, rest, rfl⟩ := List.exists_cons_of_ne_nil some
  rw [run_cons]
  by_cases comment : c = ';'
  · subst comment
    obtain ⟨body, after, rfl, noFeed, noReturn, ends | ⟨more, rfl, other⟩⟩ := exists_line rest
    · have skipped := bare after (.comment noFeed noReturn ends (.nil after))
      have shorter := congrArg List.length skipped
      simp only [List.length_append, List.length_cons] at shorter
      omega
    · have begun := step_comment between
      obtain ⟨place, offset, ran⟩ :=
        finish_run_bareReturn (s := s.step ';') (by rw [begun]) noFeed noReturn other
      rw [ran, begun, refuse_of_isSated (by exact sated)]
      exact ⟨offset, rfl⟩
  · have refused := between_of_isSated sated s.offset bare.ne_blank comment
    rw [step_between between, refused]
    exact finish_run_of_failed (s := { s.fail .trailing s.offset with offset := _ }) rfl rest

end State

/-! ## What is read for one form -/

theorem bytes_toList (source : String) : bytes source.toList = source.utf8ByteSize := by
  rw [bytes, String.ofList_toList]

theorem readOne_of_failed {source : String} {table : SymbolTable} {fault : Fault}
    (failed : (scan .one source.toList table).mode = .failed fault) :
    readOne source table =
      (.error (fault.report source.toList), (scan .one source.toList table).symbols) := by
  simp only [readOne, read, State.result, failed]
  rfl

/-- What is met is brought into the table. -/
theorem prefix_scan (goal : Goal) (text : List Char) (table : SymbolTable) :
    table.symbols <+: (scan goal text table).symbols.symbols := by
  obtain ⟨-, ⟨tokens, -, symbols⟩, -⟩ := State.traces_finish goal table text
  rw [symbols]
  exact table.prefix_insertAll _

/-- The report that a text goes on with a rest after the form that was asked for. -/
def trailing (source : String) (rest : List Char) : ParseError :=
  Fault.report ⟨.trailing, source.utf8ByteSize - bytes rest⟩ source.toList

theorem charsBefore_append (front rest : List Char) :
    Snippet.charsBefore (front ++ rest) (bytes front) = front.length := by
  induction front with
  | nil =>
    cases rest with
    | nil => rfl
    | cons c rest => exact if_pos rfl
  | cons c front ih =>
    have behind : c.utf8Size + bytes front ≠ 0 :=
      Nat.ne_of_gt (Nat.add_pos_left c.utf8Size_pos _)
    rw [List.cons_append, bytes_cons, Snippet.charsBefore, if_neg behind, Nat.add_sub_cancel_left,
      ih, List.length_cons]

/-- A report shows the first character behind the place of the fault. -/
theorem found_report {fault : Fault} {text front rest : List Char} (parted : front ++ rest = text)
    (stands : bytes front = fault.offset) :
    (fault.report text).found = rest.head?.map String.singleton := by
  simp only [Fault.report, ParseError.within, ← parted, ← stands, charsBefore_append,
    List.drop_left]

theorem found_trailing {source : String} {rest : List Char} (within : rest <:+ source.toList) :
    (trailing source rest).found = rest.head?.map String.singleton := by
  obtain ⟨front, parted⟩ := within
  refine found_report parted ?_
  show bytes front = source.utf8ByteSize - bytes rest
  rw [← bytes_toList, ← parted, bytes_append, Nat.add_sub_cancel]

namespace FirstForm

variable {source : String} {table : SymbolTable} {tokens : List Token} {datum : Datum}
  {rest : List Char}

/-- If anything follows the form, it is refused. -/
theorem readOne_eq (form : FirstForm table source.toList tokens datum rest) (some : rest ≠ []) :
    readOne source table =
      (.error (trailing source rest), table.insertAll (tokens.flatMap Token.names)) := by
  obtain ⟨place, stands, scanned⟩ := form.scan_eq .one
  obtain ⟨offset, refused⟩ := State.finish_run_of_isSated (s := State.mk .one
    (table.insertAll (tokens.flatMap Token.names)) [datum] [] .between place) rfl rfl form.bare some
  rw [refused] at scanned
  rw [bytes_toList] at stands
  have here : source.utf8ByteSize - bytes rest = place := by omega
  rw [readOne_of_failed (by rw [scanned]; rfl), scanned, trailing, here]
  rfl

theorem readOne_of_nil (form : FirstForm table source.toList tokens datum []) :
    readOne source table = (.ok datum, table.insertAll (tokens.flatMap Token.names)) := by
  obtain ⟨place, -, scanned⟩ := form.scan_eq .one
  exact readOne_of_read (by rw [read, scanned]; rfl)

theorem symbols_readOne (form : FirstForm table source.toList tokens datum rest) :
    (readOne source table).2 = table.insertAll (tokens.flatMap Token.names) := by
  cases rest with
  | nil => rw [form.readOne_of_nil]
  | cons c rest => rw [form.readOne_eq (List.cons_ne_nil c rest)]

/-- The reader for all forms goes on behind the form. -/
theorem scan_all_eq (form : FirstForm table source.toList tokens datum rest) :
    ∃ place, place + bytes rest = source.utf8ByteSize ∧
      scan .all source.toList table =
        (scan .all rest (table.insertAll (tokens.flatMap Token.names))).after [datum] place := by
  obtain ⟨place, stands, scanned⟩ := form.scan_eq .all
  rw [bytes_toList] at stands
  refine ⟨place, stands, ?_⟩
  have begun : State.mk .all (table.insertAll (tokens.flatMap Token.names)) [datum] [] .between
      place = (State.initial .all (table.insertAll (tokens.flatMap Token.names))).after [datum]
        place := by
    simp only [State.after, State.initial, Mode.shift, List.nil_append, Nat.zero_add]
  rw [scanned, begun, State.run_after _ _ rfl, State.finish_after _ _ (State.goal_run ..), scan]

/-- Reading for one form meets no more than reading for all. -/
theorem prefix_readAll (form : FirstForm table source.toList tokens datum rest) :
    (readOne source table).2.symbols <+: (readAll source table).2.symbols := by
  obtain ⟨place, -, scanned⟩ := form.scan_all_eq
  have symbols : (readAll source table).2 = (scan .all rest (readOne source table).2).symbols := by
    rw [readAll, read, scanned, form.symbols_readOne]
    rfl
  rw [symbols]
  exact prefix_scan ..

/-- The form is the first one that is found. -/
theorem exists_of_readAll (form : FirstForm table source.toList tokens datum rest)
    {known : SymbolTable} {forms : List Datum} (read : readAll source table = (.ok forms, known)) :
    ∃ more, forms = datum :: more ∧ (more ≠ [] → rest ≠ []) := by
  obtain ⟨place, -, scanned⟩ := form.scan_all_eq
  obtain ⟨r, rests⟩ :=
    State.exists_rests_scan .all (table.insertAll (tokens.flatMap Token.names)) rest
  simp only [readAll, Reader.read, scanned, State.result] at read
  cases r with
  | some st =>
    rw [State.mode_after _ _ rests.1] at read
    obtain rfl := Except.ok.inj (Prod.mk.inj read).1
    refine ⟨_, List.reverse_append, fun some none => some ?_⟩
    rw [none]
    rfl
  | none =>
    obtain ⟨fault, failed⟩ := rests
    rw [State.mode_after _ _ failed] at read
    cases (Prod.mk.inj read).1

/-- A fault shows behind the form. -/
theorem le_of_fails (form : FirstForm table source.toList tokens datum rest) {fault : Fault}
    (fails : Fails source table fault) :
    rest ≠ [] ∧ source.utf8ByteSize - bytes rest ≤ fault.offset := by
  obtain ⟨place, stands, scanned⟩ := form.scan_all_eq
  obtain ⟨r, rests⟩ :=
    State.exists_rests_scan .all (table.insertAll (tokens.flatMap Token.names)) rest
  rw [fails_iff, scanned] at fails
  cases r with
  | some st =>
    rw [State.mode_after _ _ rests.1] at fails
    cases fails
  | none =>
    obtain ⟨early, failed⟩ := rests
    rw [State.mode_after _ _ failed] at fails
    obtain rfl := Mode.failed.inj fails
    refine ⟨fun none => ?_, ?_⟩
    · rw [none] at failed
      cases failed
    · show source.utf8ByteSize - bytes rest ≤ early.offset + place
      omega

end FirstForm

/-- At the end of a text without forms a reader for one fails, and one for all fails alike unless
nothing is open. -/
theorem State.settle_only {s : State} {r : Option Stack} (rests : s.Rests r) (all : s.goal = .all)
    (none : s.forms = []) :
    s.only.settle = s.settle.only ∧ (∃ fault, s.settle.mode = .failed fault) ∨
      s.settle = s ∧ s.mode = .between ∧ s.only.settle = s.only.fail .endOfText s.offset := by
  have mode : s.only.mode = s.mode := rfl
  cases r with
  | none =>
    obtain ⟨fault, failed⟩ := rests
    refine .inl ⟨?_, fault, ?_⟩ <;> simp only [settle, mode, failed]
  | some st =>
    obtain ⟨between, -⟩ := rests
    have early : s.only.settle = s.only.fail .endOfText s.offset := by
      simp [settle, between, only, none]
    rw [settle_of_unfailed all (by simp [Unfailed, between])]
    split
    · exact .inr ⟨by rw [← between], between, early⟩
    · exact .inl ⟨early, _, rfl⟩

/-- **If there is no first form then both readers fail alike**, but for a text without forms, of
which the reader for all makes just that. -/
theorem fails_of_no_form {source : String} {table : SymbolTable}
    (noForm : ¬ ∃ tokens datum rest, FirstForm table source.toList tokens datum rest) :
    (∃ known, readAll source table = (.ok [], known) ∧ readOne source table =
      (.error (Fault.report ⟨.endOfText, source.utf8ByteSize⟩ source.toList), known)) ∨
    ∃ fault, Fails source table fault ∧ readOne source table =
      (.error (fault.report source.toList), (readAll source table).2) := by
  obtain ⟨front, rest, st, datum, parted, leaves, closed, forms⟩ | ⟨none, same⟩ :=
    State.inStep_run (s := State.initial .all table) rfl source.toList
  · obtain ⟨tokens, after, form⟩ := State.exists_firstForm leaves closed forms
    exact absurd ⟨tokens, datum, after, parted ▸ form⟩ noForm
  · have scanned : scan .all source.toList table =
        ((State.initial .all table).run source.toList).flush.settle := State.finish_eq _
    have scannedOne : scan .one source.toList table =
        ((State.initial .all table).run source.toList).flush.only.settle := by
      rw [← same]
      exact State.finish_eq _
    have all : ((State.initial .all table).run source.toList).flush.goal = .all := by
      rw [State.goal_flush, State.goal_run]
      rfl
    have stands : ((State.initial .all table).run source.toList).flush.offset =
        source.utf8ByteSize := by
      rw [State.offset_flush, State.offset_run, String.ofList_toList]
      exact Nat.zero_add _
    obtain ⟨r, rests⟩ := ((State.initial .all table).run source.toList).exists_rests_flush
    obtain ⟨alike, fault, failed⟩ | ⟨stays, between, early⟩ := State.settle_only rests all none
    · rw [← scanned] at alike failed
      rw [alike] at scannedOne
      refine .inr ⟨fault, fails_iff.mpr failed, ?_⟩
      rw [readOne_of_failed (by rw [scannedOne]; exact failed), scannedOne]
      rfl
    · rw [early, stands] at scannedOne
      rw [stays] at scanned
      refine .inl ⟨_, ?_, readOne_of_failed (by rw [scannedOne]; rfl)⟩
      rw [readAll, read, State.result, scannedOne, scanned, between, none]
      rfl

/-- A text goes on with a rest after its first form, and is refused for that. -/
structure Trails (source : String) (table : SymbolTable) (first : Datum) (rest : List Char) :
    Prop where
  form : ∃ tokens, FirstForm table source.toList tokens first rest
  more : rest ≠ []
  refused : (readOne source table).1 = .error (trailing source rest)
  kind : (trailing source rest).kind = .trailingContent
  found : (trailing source rest).found = rest.head?.map String.singleton

theorem FirstForm.trails {source : String} {table : SymbolTable} {tokens : List Token}
    {first : Datum} {rest : List Char} (form : FirstForm table source.toList tokens first rest)
    (more : rest ≠ []) : Trails source table first rest where
  form := ⟨tokens, form⟩
  more := more
  refused := by rw [form.readOne_eq more]
  kind := rfl
  found := found_trailing form.begins.suffix

/-- **What is read for one form, as what is read for all tells it.**  A text is read as a form if it
is read as that form only, with the same symbols.  If it holds no form at all, it ends too early.
If it holds more, or a fault behind a first form, then what comes after the form and the blanks and
comments that follow it is refused.  Any other fault is met by both.  The symbols that are known in
the end are among those that are known if all forms are asked for, and have the same numbers. -/
theorem readOne_agrees (source : String) (table : SymbolTable) :
    (∀ datum known, readOne source table = (.ok datum, known) ↔
      readAll source table = (.ok [datum], known)) ∧
    (∀ known, readAll source table = (.ok [], known) →
      ∃ report, report = Fault.report ⟨.endOfText, source.utf8ByteSize⟩ source.toList ∧
        report.kind = .incomplete ∧ readOne source table = (.error report, known)) ∧
    (∀ first second more known, readAll source table = (.ok (first :: second :: more), known) →
      ∃ rest, Trails source table first rest) ∧
    (∀ report known, readAll source table = (.error report, known) →
      ∃ fault, Fails source table fault ∧ report = fault.report source.toList ∧
        ((∃ first rest, Trails source table first rest ∧
          source.utf8ByteSize - bytes rest ≤ fault.offset) ∨
        (¬ ∃ tokens first rest, FirstForm table source.toList tokens first rest) ∧
          readOne source table = (.error report, known))) ∧
    (readOne source table).2.symbols <+: (readAll source table).2.symbols := by
  have agree : ∀ datum known, readOne source table = (.ok datum, known) ↔
      readAll source table = (.ok [datum], known) := by
    intro datum known
    constructor
    · intro h
      obtain ⟨tokens, splits, derived, -, symbols⟩ := read_eq_ok_iff.mp (read_of_readOne h)
      exact read_eq_ok_iff.mpr ⟨tokens, splits, derived, nofun, symbols⟩
    · intro h
      obtain ⟨tokens, splits, derived, -, symbols⟩ := read_eq_ok_iff.mp h
      exact readOne_of_read (read_eq_ok_iff.mpr ⟨tokens, splits, derived, fun _ => rfl, symbols⟩)
  refine ⟨agree, ?_⟩
  -- A first form decides what either reader does; without one they are in step to the end.
  by_cases formed : ∃ tokens first rest, FirstForm table source.toList tokens first rest
  · obtain ⟨tokens, first, rest, form⟩ := formed
    refine ⟨?_, ?_, ?_, form.prefix_readAll⟩
    · intro known read
      obtain ⟨more, forms, -⟩ := form.exists_of_readAll read
      cases forms
    · intro first second more known read
      obtain ⟨later, forms, followed⟩ := form.exists_of_readAll read
      obtain ⟨rfl, rfl⟩ := List.cons.inj forms
      exact ⟨rest, form.trails (followed (List.cons_ne_nil _ _))⟩
    · intro report known read
      obtain ⟨fault, fails, same⟩ := exists_fails_of_error read
      obtain ⟨more, behind⟩ := form.le_of_fails fails
      exact ⟨fault, fails, same, .inl ⟨first, rest, form.trails more, behind⟩⟩
  · obtain ⟨known, all, one⟩ | ⟨fault, fails, one⟩ := fails_of_no_form formed
    · rw [all, one]
      refine ⟨?_, ?_, ?_, List.prefix_rfl⟩
      · intro known same
        obtain rfl := (Prod.mk.inj same).2
        exact ⟨_, rfl, rfl, rfl⟩
      · intro first second more known same
        cases (Prod.mk.inj same).1
      · intro report known same
        cases (Prod.mk.inj same).1
    · have all := readAll_of_fails fails
      rw [one]
      refine ⟨?_, ?_, ?_, List.prefix_rfl⟩
      · intro known read
        cases all.symm.trans read
      · intro first second more known read
        cases all.symm.trans read
      · intro report known read
        obtain ⟨same, symbols⟩ := Prod.mk.inj (all.symm.trans read)
        refine ⟨fault, fails, (Except.error.inj same).symm, .inr ⟨formed, ?_⟩⟩
        rw [Except.error.inj same, all, symbols]

/-- After the form `a` a comment is skipped, and the bracket after it is refused. -/
example : (readOne "a ; b\n ) c" (.initial : SymbolTable)).1 =
    .error (trailing "a ; b\n ) c" [')', ' ', 'c']) :=
  congrArg Prod.fst (readOne_of_failed (by decide +kernel))

end Reader

end GuardedLisp
