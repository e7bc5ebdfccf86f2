import GuardedLisp.Reader
import Mathlib.Tactic.SplitIfs

/-!
# Reading further on in a text

Between two forms the reader remembers nothing but the symbols.  So what it makes of a text does not
depend on the forms that it has found before, or on how far from the start it stands: those forms
stay as they are, and all offsets are counted from another place.

This holds if all forms of a text are asked for.  A reader that looks for one form only does
remember that it has found it.

## Main definitions

* `Reader.State.after`: the same state, after other forms and further on

## Main results

* `Reader.State.run_after`, `Reader.State.finish_after`: the reader goes on as it would from the
  start
-/

namespace GuardedLisp

namespace Reader

/-- A mode with all offsets counted from another place. -/
def Mode.shift (offset : Nat) : Mode → Mode
  | atom start chars => .atom (start + offset) chars
  | escape start chars => .escape (start + offset) chars
  | comment start => .comment (start + offset)
  | commentReturn start => .commentReturn (start + offset)
  | failed fault => .failed { fault with offset := fault.offset + offset }
  | between => .between
  | string chars => .string chars
  | comma => .comma

namespace State

variable {τ : Type} [Interns τ]

/-- A state as it is after given forms, latest first, that end at a given offset. -/
def after (forms : List Datum) (offset : Nat) (s : State τ) : State τ where
  goal := s.goal
  symbols := s.symbols
  forms := s.forms ++ forms
  pending := s.pending
  mode := s.mode.shift offset
  offset := s.offset + offset

/-! ## Faults -/

/-- No fault has been met. -/
def Unfailed (s : State τ) : Prop := ∀ fault, s.mode ≠ .failed fault

theorem unfailed_of_step {s : State τ} {c : Char} (h : (s.step c).Unfailed) : s.Unfailed :=
  fun fault failed => h fault (by simp [step, consume, failed])

theorem unfailed_of_run {s : State τ} {text : List Char} (h : (s.run text).Unfailed) : s.Unfailed :=
  fun fault failed => h fault (mode_run_of_failed failed text)

theorem not_unfailed_fail {s : State τ} {cause : Cause} {offset : Nat} :
    ¬ (s.fail cause offset).Unfailed := fun h => h _ rfl

/-! ## Pieces of the reader -/

/-- What a character that is no blank does where an expression may start. -/
def opened (s : State τ) (place : Nat) (c : Char) : State τ :=
  if c = '(' then { s with pending := .list [] :: s.pending }
  else if c = '"' then { s with mode := .string [] }
  else if c = '\x27' then s.mark .quote (place + 1)
  else if c = '\x60' then s.mark .quasiquote (place + 1)
  else if c = ',' then { s with mode := .comma }
  else if Atom.isAtomChar c then { s with mode := .atom place [c] }
  else s.fail .misplaced place

theorem between_eq (s : State τ) (place : Nat) (c : Char) :
    s.between place c =
      if isBlank c then s
      else if c = ';' then { s with mode := .comment place }
      else if c = ')' then s.close place
      else if c = '.' then s.dot place
      else s.starting place (s.opened place c) := rfl

variable (forms : List Datum) (offset : Nat) (s : State τ)

theorem after_after (more : List Datum) (further : Nat) :
    (s.after forms offset).after more further = s.after (forms ++ more) (offset + further) := by
  obtain ⟨goal, symbols, found, pending, mode, place⟩ := s
  simp only [after, mk.injEq, true_and, List.append_assoc, Nat.add_assoc, and_true]
  cases mode <;> simp only [Mode.shift, Nat.add_assoc]

theorem mode_after {s : State τ} {mode : Mode} (current : s.mode = mode) :
    (s.after forms offset).mode = mode.shift offset := congrArg (Mode.shift offset) current

theorem unfailed_after {forms : List Datum} {offset : Nat} {s : State τ} :
    (s.after forms offset).Unfailed ↔ s.Unfailed := by
  unfold Unfailed
  cases current : s.mode with
  | failed fault =>
    rw [mode_after forms offset current]
    exact ⟨fun h => absurd rfl (h _), fun h => absurd rfl (h _)⟩
  | _ =>
    rw [mode_after forms offset current]
    exact ⟨fun _ => nofun, fun _ => nofun⟩

/-! ## The goal stays -/

theorem goal_endAtom (start : Nat) (chars : List Char) :
    (s.endAtom start chars).goal = s.goal := by
  unfold endAtom
  split
  · split <;> rfl
  · rfl

theorem goal_mark (keyword : Symbol) (place : Nat) : (s.mark keyword place).goal = s.goal := by
  simp only [mark]
  split <;> rfl

theorem goal_starting (place : Nat) {next : State τ} (same : next.goal = s.goal) :
    (s.starting place next).goal = s.goal := by
  unfold starting
  split
  · rfl
  · split
    · rfl
    · split
      · rfl
      · exact same

theorem goal_between (place : Nat) (c : Char) : (s.between place c).goal = s.goal := by
  have refused : (s.refuse place).goal = s.goal := goal_starting s place rfl
  have opened : (s.opened place c).goal = s.goal := by
    unfold opened
    split_ifs <;> first | rfl | exact goal_mark ..
  rw [between_eq]
  split_ifs
  · rfl
  · rfl
  · unfold close
    split <;> first | rfl | exact refused
  · unfold dot
    split <;> first | rfl | exact refused
  · exact goal_starting s place opened

theorem goal_resume (c : Char) : (s.resume c).goal = s.goal := by
  unfold resume
  split
  · rfl
  · exact goal_between s s.offset c

theorem goal_step (c : Char) : (s.step c).goal = s.goal := by
  obtain ⟨goal, symbols, found, pending, mode, place⟩ := s
  cases mode with
  | between => exact goal_between _ place c
  | atom start chars =>
    simp only [step, consume]
    split
    · rfl
    · rw [goal_resume, goal_endAtom]
  | string chars =>
    simp only [step, consume]
    split_ifs <;> rfl
  | escape start chars =>
    simp only [step, consume]
    split <;> rfl
  | comma =>
    simp only [step, consume]
    split
    · rw [goal_mark]
    · rw [goal_resume, goal_mark]
  | comment start =>
    simp only [step, consume]
    split_ifs <;> rfl
  | commentReturn start =>
    simp only [step, consume]
    split_ifs
    · rfl
    · exact goal_starting _ start rfl
  | failed fault => rfl

theorem goal_run (text : List Char) : (s.run text).goal = s.goal := by
  induction text generalizing s with
  | nil => rfl
  | cons c text ih => rw [run_cons, ih, goal_step]

/-! ## What a character does -/

theorem fail_after (cause : Cause) (place : Nat) :
    (s.after forms offset).fail cause (place + offset) =
      (s.fail cause place).after forms offset := rfl

theorem supply_after (datum : Datum) :
    (s.after forms offset).supply datum = (s.supply datum).after forms offset := by
  simp only [supply, after, List.append_assoc]
  rfl

/-- A reader for all forms is never done. -/
theorem isSated_of_all {s : State τ} (all : s.goal = .all) : s.isSated = false := by
  simp [isSated, all]

section All

variable {s} (all : s.goal = .all)

include all

theorem starting_after (place : Nat) (next : State τ) :
    (s.after forms offset).starting (place + offset) (next.after forms offset) =
      (s.starting place next).after forms offset := by
  have sated : (s.after forms offset).isSated = false := isSated_of_all all
  rw [starting, starting, sated, isSated_of_all all]
  simp only [Bool.false_eq_true, if_false]
  rw [show (s.after forms offset).pending = s.pending from rfl]
  split
  · rfl
  · split <;> rfl

theorem refuse_after (place : Nat) :
    (s.after forms offset).refuse (place + offset) = (s.refuse place).after forms offset := by
  unfold refuse
  rw [fail_after]
  exact starting_after forms offset all place _

theorem close_after (place : Nat) :
    (s.after forms offset).close (place + offset) = (s.close place).after forms offset := by
  unfold close
  rw [show (s.after forms offset).pending = s.pending from rfl]
  split
  · next items outer _ => exact supply_after forms offset { s with pending := outer } _
  · next items tail outer _ => exact supply_after forms offset { s with pending := outer } _
  · exact refuse_after forms offset all place

theorem dot_after (place : Nat) :
    (s.after forms offset).dot (place + offset) = (s.dot place).after forms offset := by
  unfold dot
  rw [show (s.after forms offset).pending = s.pending from rfl]
  split
  · rfl
  · exact refuse_after forms offset all place

omit all in
theorem mark_after (keyword : Symbol) (place : Nat) :
    (s.after forms offset).mark keyword (place + offset) =
      (s.mark keyword place).after forms offset := by
  simp only [mark]
  rw [show (s.after forms offset).pending = s.pending from rfl]
  split <;> rfl

omit all in
theorem opened_after (place : Nat) (c : Char) :
    (s.after forms offset).opened (place + offset) c = (s.opened place c).after forms offset := by
  unfold opened
  rw [Nat.add_right_comm place offset 1, mark_after, mark_after]
  split_ifs <;> rfl

theorem between_after (place : Nat) (c : Char) :
    (s.after forms offset).between (place + offset) c =
      (s.between place c).after forms offset := by
  rw [between_eq, between_eq, opened_after, close_after forms offset all,
    dot_after forms offset all, starting_after forms offset all]
  split_ifs <;> rfl

omit all in
theorem endAtom_after (start : Nat) (chars : List Char) :
    (s.after forms offset).endAtom (start + offset) chars =
      (s.endAtom start chars).after forms offset := by
  unfold endAtom
  split
  · split
    · exact supply_after forms offset s _
    · rfl
  · exact supply_after forms offset { s with symbols := (Interns.intern s.symbols _).2 } _

theorem resume_after (c : Char) :
    (s.after forms offset).resume c = (s.resume c).after forms offset := by
  obtain ⟨goal, symbols, found, pending, mode, place⟩ := s
  cases mode with
  | failed fault => rfl
  | _ => exact between_after forms offset all place c

theorem consume_after (c : Char) :
    (s.after forms offset).consume c = (s.consume c).after forms offset := by
  have place : (s.after forms offset).offset = s.offset + offset := rfl
  cases current : s.mode with
  | between =>
    simp only [consume, current, mode_after forms offset current, Mode.shift, place]
    exact between_after forms offset all s.offset c
  | atom start chars =>
    simp only [consume, current, mode_after forms offset current, Mode.shift]
    rw [endAtom_after, resume_after forms offset ((goal_endAtom s start chars).trans all)]
    split <;> rfl
  | string chars =>
    simp only [consume, current, mode_after forms offset current, Mode.shift]
    rw [supply_after]
    split_ifs <;> rfl
  | escape start chars =>
    simp only [consume, current, mode_after forms offset current, Mode.shift]
    split <;> rfl
  | comma =>
    simp only [consume, current, mode_after forms offset current, Mode.shift, place]
    rw [Nat.add_right_comm s.offset offset 1, mark_after, mark_after,
      resume_after forms offset ((goal_mark s .unquote s.offset).trans all)]
    split_ifs <;> rfl
  | comment start =>
    simp only [consume, current, mode_after forms offset current, Mode.shift]
    split_ifs <;> rfl
  | commentReturn start =>
    simp only [consume, current, mode_after forms offset current, Mode.shift]
    rw [refuse_after forms offset all]
    split_ifs <;> rfl
  | failed fault =>
    simp only [consume, current, mode_after forms offset current, Mode.shift]

theorem step_after (c : Char) :
    (s.after forms offset).step c = (s.step c).after forms offset := by
  simp only [step, consume_after forms offset all]
  simp only [after, Nat.add_right_comm]

/-- The reader goes on as it would from the start. -/
theorem run_after (text : List Char) :
    (s.after forms offset).run text = (s.run text).after forms offset := by
  induction text generalizing s with
  | nil => rfl
  | cons c text ih =>
    rw [run_cons, run_cons, step_after forms offset all, ih ((goal_step s c).trans all)]

/-- A reader for all forms is done if nothing is open. -/
theorem settle_of_unfailed (unfailed : s.Unfailed) :
    s.settle = if s.pending.isEmpty then { s with mode := .between }
      else s.fail .endOfText s.offset := by
  unfold settle
  split
  · next fault failed => exact absurd failed (unfailed fault)
  · simp [all]

theorem settle_after : (s.after forms offset).settle = s.settle.after forms offset := by
  by_cases failed : ∃ fault, s.mode = .failed fault
  · obtain ⟨fault, failed⟩ := failed
    simp only [settle, failed, mode_after forms offset failed, Mode.shift]
  · have unfailed : s.Unfailed := fun fault same => failed ⟨fault, same⟩
    rw [settle_of_unfailed all unfailed,
      settle_of_unfailed (s := s.after forms offset) all (unfailed_after.mpr unfailed)]
    rw [show (s.after forms offset).pending = s.pending from rfl]
    split_ifs <;> rfl

/-- At the end of the text it finds what it would find. -/
theorem finish_after : (s.after forms offset).finish = s.finish.after forms offset := by
  have place : (s.after forms offset).offset = s.offset + offset := rfl
  cases current : s.mode with
  | atom start chars =>
    simp only [finish, current, mode_after forms offset current, Mode.shift]
    rw [endAtom_after, settle_after forms offset ((goal_endAtom s start chars).trans all)]
  | comma =>
    simp only [finish, current, mode_after forms offset current, Mode.shift, place]
    rw [mark_after, settle_after forms offset ((goal_mark s .unquote s.offset).trans all)]
  | commentReturn start =>
    simp only [finish, current, mode_after forms offset current, Mode.shift]
    exact refuse_after forms offset all start
  | between | comment start =>
    simp only [finish, current, mode_after forms offset current, Mode.shift]
    exact settle_after forms offset all
  | string chars | escape start chars =>
    simp only [finish, current, mode_after forms offset current, Mode.shift]
    rfl
  | failed fault =>
    simp only [finish, current, mode_after forms offset current, Mode.shift]

end All

end State

end Reader

end GuardedLisp
