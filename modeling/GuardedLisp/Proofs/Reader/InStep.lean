import GuardedLisp.Proofs.Reader.Beginning

/-!
# Two readers in step

A text may be read for one form or for all.  The two readers go in step until the first form is
found, and from there on they differ.

## Main definitions

* `Reader.State.only`, `Reader.State.InStep`: a reader for one form, and in step with one for all

## Main results

* `Reader.State.inStep_step`, `Reader.State.inStep_run`: the readers go in step up to the first form
* `Reader.State.exists_firstForm`: what is found then is the first form of the text
-/

namespace GuardedLisp

namespace Reader

/-- A datum is a form, and then nothing is open, or an open expression takes it. -/
theorem place_cases (pending : List Open) (datum : Datum) :
    (place pending datum).2 = none ∨ ∃ form, place pending datum = ([], some form) := by
  induction pending generalizing datum with
  | nil => exact .inr ⟨datum, rfl⟩
  | cons innermost outer ih =>
    cases innermost with
    | marked keyword => exact ih (Datum.marked keyword datum)
    | list items | dotted items | closing items tail => exact .inl rfl

namespace State

/-! ## Two readers in step -/

/-- The same reader, looking for one form. -/
def only (s : State) : State := { s with goal := .one }

/-- A reader for all forms has just found the first one. -/
def HasFirst (s : State) : Prop :=
  s.mode = .between ∧ s.pending = [] ∧ ∃ datum, s.forms = [datum]

/-- A reader for one form is in step with one for all, which has found no form before the last
character. -/
structure InStep (s t : State) : Prop where
  same : t = s.only
  few : s.forms = [] ∨ s.HasFirst

section InStep

variable {s t next next' : State}

theorem inStep_of_forms (none : s.forms = []) : s.InStep s.only := ⟨rfl, .inl none⟩

variable (none : s.forms = []) (place : Nat)

include none

theorem inStep_supply (datum : Datum) : (s.supply datum).InStep (s.only.supply datum) := by
  refine ⟨rfl, ?_⟩
  obtain inside | ⟨form, outside⟩ := place_cases s.pending datum
  · exact .inl (by simp only [supply, inside, none]; rfl)
  · refine .inr ⟨rfl, ?_, form, ?_⟩
    · simp only [supply, outside]
    · simp only [supply, outside, none]
      rfl

theorem inStep_starting (step : next.InStep next') :
    (s.starting place next).InStep (s.only.starting place next') := by
  have free : s.isSated = false := by simp [isSated, none]
  have free' : s.only.isSated = false := by simp [isSated, only, none]
  have pending : s.only.pending = s.pending := rfl
  unfold starting
  rw [free, free', pending]
  simp only [Bool.false_eq_true, if_false]
  split
  · exact inStep_of_forms (s := s.fail .misplaced place) none
  · split
    · exact inStep_of_forms (s := s.fail .tooDeep place) none
    · exact step

theorem inStep_refuse : (s.refuse place).InStep (s.only.refuse place) :=
  inStep_starting none place (inStep_of_forms (s := s.fail .misplaced place) none)

theorem inStep_close : (s.close place).InStep (s.only.close place) := by
  have pending : s.only.pending = s.pending := rfl
  unfold close
  rw [pending]
  split
  · next items outer _ => exact inStep_supply (s := { s with pending := outer }) none _
  · next items tail outer _ => exact inStep_supply (s := { s with pending := outer }) none _
  · exact inStep_refuse none place

theorem inStep_dot : (s.dot place).InStep (s.only.dot place) := by
  have pending : s.only.pending = s.pending := rfl
  unfold dot
  rw [pending]
  split
  · next item items outer _ =>
    exact inStep_of_forms (s := { s with pending := .dotted (item :: items) :: outer }) none
  · exact inStep_refuse none place

theorem inStep_mark (keyword : Symbol) :
    (s.mark keyword place).InStep (s.only.mark keyword place) := by
  have pending : s.only.pending = s.pending := rfl
  have forms : (s.mark keyword place).forms = [] := by
    simp only [mark]
    split <;> exact none
  refine ⟨?_, .inl forms⟩
  simp only [mark, pending]
  split <;> rfl

theorem inStep_opened (c : Char) : (s.opened place c).InStep (s.only.opened place c) := by
  unfold opened
  split_ifs
  · exact inStep_of_forms (s := { s with pending := .list [] :: s.pending }) none
  · exact inStep_of_forms (s := { s with mode := .string [] }) none
  · exact inStep_mark none (place + 1) .quote
  · exact inStep_mark none (place + 1) .quasiquote
  · exact inStep_of_forms (s := { s with mode := .comma }) none
  · exact inStep_of_forms (s := { s with mode := .atom place [c] }) none
  · exact inStep_of_forms (s := s.fail .misplaced place) none

theorem inStep_between (c : Char) : (s.between place c).InStep (s.only.between place c) := by
  rw [between_eq, between_eq]
  split_ifs
  · exact inStep_of_forms none
  · exact inStep_of_forms (s := { s with mode := .comment place }) none
  · exact inStep_close none place
  · exact inStep_dot none place
  · exact inStep_starting none place (inStep_opened none place c)

theorem inStep_endAtom (chars : List Char) :
    (s.endAtom place chars).InStep (s.only.endAtom place chars) := by
  unfold endAtom
  split
  · split
    · exact inStep_supply none _
    · exact inStep_of_forms (s := s.fail .integerRange place) none
  · exact inStep_supply (s := { s with symbols := s.symbols.insert _ }) none _

omit place in
theorem inStep_resume (c : Char) : (s.resume c).InStep (s.only.resume c) := by
  have mode : s.only.mode = s.mode := rfl
  unfold resume
  rw [mode]
  split
  · exact inStep_of_forms none
  · exact inStep_between none s.offset c

omit place in
/-- Completing a token may bring the first form. -/
theorem inStep_flush : s.flush.InStep s.only.flush := by
  have mode : s.only.mode = s.mode := rfl
  have place : s.only.offset = s.offset := rfl
  unfold flush
  rw [mode, place]
  split
  · exact inStep_endAtom none _ _
  · exact inStep_mark none _ _
  · exact inStep_of_forms (s := s.fail .endOfText s.offset) none
  · exact inStep_of_forms (s := s.fail .endOfText s.offset) none
  · exact inStep_refuse none _
  · exact inStep_of_forms (s := { s with mode := .between }) none
  · exact inStep_of_forms none
  · exact inStep_of_forms none

omit place in
/-- **The readers go in step** if the character does not end an atom that is the first form. -/
theorem inStep_step {c : Char} {text : List Char}
    (goes : s.mode.EndsBefore (c :: text) → s.flush.forms = []) :
    (s.step c).InStep (s.only.step c) := by
  suffices consumed : (s.consume c).InStep (s.only.consume c) by
    obtain ⟨same, few⟩ := consumed
    refine ⟨?_, few⟩
    rw [step, same]
    rfl
  have mode : s.only.mode = s.mode := rfl
  have place : s.only.offset = s.offset := rfl
  unfold consume
  rw [mode, place]
  cases current : s.mode with
  | between => exact inStep_between none s.offset c
  | atom start chars =>
    dsimp only
    split
    · exact inStep_of_forms (s := { s with mode := .atom start (c :: chars) }) none
    · next other =>
      have ended : (s.endAtom start chars).forms = [] := by
        simp only [current, flush] at goes
        exact goes (by simpa [Mode.EndsBefore] using other)
      rw [(inStep_endAtom none start chars).same]
      exact inStep_resume ended c
  | string chars =>
    dsimp only
    split_ifs
    · exact inStep_supply none _
    · exact inStep_of_forms (s := { s with mode := .escape s.offset chars }) none
    · exact inStep_of_forms (s := { s with mode := .string (c :: chars) }) none
  | escape start chars =>
    dsimp only
    split
    · exact inStep_of_forms (s := { s with mode := .string (_ :: chars) }) none
    · exact inStep_of_forms (s := s.fail .unknownEscape start) none
  | comma =>
    dsimp only
    split
    · exact inStep_mark none (s.offset + 1) .unquoteSplicing
    · have ended : (s.mark .unquote s.offset).forms = [] := by
        simp only [mark]
        split <;> exact none
      rw [(inStep_mark none s.offset .unquote).same]
      exact inStep_resume ended c
  | comment start =>
    dsimp only
    split_ifs
    · exact inStep_of_forms (s := { s with mode := .between }) none
    · exact inStep_of_forms (s := { s with mode := .commentReturn start }) none
    · exact inStep_of_forms none
  | commentReturn start =>
    dsimp only
    split
    · exact inStep_of_forms (s := { s with mode := .between }) none
    · exact inStep_refuse none start
  | failed fault => exact inStep_of_forms none

end InStep

/-- A reader that has just found the first form stands behind it. -/
theorem HasFirst.rests {s : State} (first : s.HasFirst) :
    ∃ st datum, s.Rests (some st) ∧ st.pending = [] ∧ st.forms = [datum] := by
  obtain ⟨between, closed, datum, forms⟩ := first
  have rests : s.Rests (some s.stack) := ⟨between, rfl⟩
  exact ⟨s.stack, datum, rests, closed, forms⟩

/-- **The readers go in step up to the first form**, or to the end of the text. -/
theorem inStep_run {s : State} (none : s.forms = []) (text : List Char) :
    (∃ front rest st datum, text = front ++ rest ∧ (s.run front).Leaves rest (some st) ∧
      st.pending = [] ∧ st.forms = [datum]) ∨
    ((s.run text).flush.forms = [] ∧ (s.only.run text).flush = (s.run text).flush.only) := by
  -- Induction on the text; the first form is found where it ceases that there is none.
  induction text generalizing s with
  | nil =>
    obtain ⟨same, few | first⟩ := inStep_flush none
    · exact .inr ⟨few, same⟩
    · obtain ⟨st, datum, rests, closed, forms⟩ := first.rests
      have ends : s.mode.EndsBefore [] :=
        endsBefore_of_flush (unfailed_of_rests rests) nofun fun _ _ => .inl rfl
      exact .inl ⟨[], [], st, datum, rfl, ⟨ends, rests⟩, closed, forms⟩
  | cons c text ih =>
    by_cases ended : s.mode.EndsBefore (c :: text) ∧ s.flush.forms ≠ []
    · obtain ⟨ends, some⟩ := ended
      obtain ⟨st, datum, rests, closed, forms⟩ := ((inStep_flush none).few.resolve_left some).rests
      exact .inl ⟨[], c :: text, st, datum, rfl, ⟨ends, rests⟩, closed, forms⟩
    · have goes (ends : s.mode.EndsBefore (c :: text)) : s.flush.forms = [] :=
        Classical.byContradiction fun some => ended ⟨ends, some⟩
      obtain ⟨same, few | first⟩ := inStep_step none goes
      · rw [run_cons, run_cons, same]
        obtain ⟨front, rest, st, datum, rfl, leaves, closed, forms⟩ | later := ih few
        · exact .inl ⟨c :: front, rest, st, datum, rfl, leaves, closed, forms⟩
        · exact .inr later
      · obtain ⟨st, datum, rests, closed, forms⟩ := first.rests
        exact .inl ⟨[c], text, st, datum, rfl, leaves_of_rests rests text, closed, forms⟩

/-! ## What is found first -/

/-- A reader stands at most at one stack. -/
theorem eq_of_rests {s : State} {st : Stack} {r : Option Stack} (rests : s.Rests (some st))
    (again : s.Rests r) : r = some st := by
  obtain ⟨between, rfl⟩ := rests
  cases r with
  | some other => rw [again.2]
  | none =>
    obtain ⟨fault, failed⟩ := again
    cases between.symm.trans failed

/-- **What the reader finds first is the first form.** -/
theorem exists_firstForm {front rest : List Char} {st : Stack} {datum : Datum}
    {table : SymbolTable} (leaves : ((initial .all table).run front).Leaves rest (some st))
    (closed : st.pending = []) (forms : st.forms = [datum]) :
    ∃ tokens after, FirstForm table (front ++ rest) tokens datum after := by
  obtain ⟨ends, rests⟩ := leaves
  have stands : ((initial .all table).run front).offset + bytes rest = bytes (front ++ rest) := by
    rw [offset_run, initial, Nat.zero_add, bytes_append]
    rfl
  obtain ⟨current, ⟨tokens, begins, -⟩, mode⟩ :=
    traces_flush_of_endsBefore (traces_initial .all table front rest) stands ends
  rw [rests.1] at mode
  have here : current = rest := mode
  subst here
  have taken : (Stack.initial .all table).takeAll tokens = some st := by
    obtain leaves | ⟨⟨start, returned⟩, -⟩ := leaves_of_begins begins (s := initial .all table) rfl
    · exact eq_of_rests rests leaves.rests
    · rw [returned] at ends
      exact ends.elim
  obtain ⟨done, before, parted, expressions, opens⟩ :=
    ((Stack.derived_initial .all table).takeAll taken).read
  rw [(Stack.goal_symbols_takeAll taken).2] at expressions
  rw [closed] at opens
  rw [forms] at expressions
  cases opens
  cases expressions with
  | cons derives none =>
    cases none
    obtain ⟨after, skipped, bare⟩ := exists_bare current
    simp only [List.append_nil, List.nil_append] at parted
    subst parted
    exact ⟨_, after, by simpa using begins.trans skipped, derives, bare⟩

end State

end Reader

end GuardedLisp
