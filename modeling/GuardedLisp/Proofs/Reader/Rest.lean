import GuardedLisp.Proofs.Reader.Brackets
import GuardedLisp.Proofs.Reader.Stack

/-!
# The reader between two tokens

Where a token ends the reader is at rest: it has a stack and nothing else that matters later, or it
has failed.  A token may end without a character that says so, and then it makes no difference
whether it is completed before the next character is read or by it.

## Main definitions

* `Reader.State.flush`: the reader once the token at the end of the text is complete
* `Reader.State.Rests`: the reader stands between two tokens with a given stack, or has failed
* `Reader.State.Leaves`: a token that may end leaves a given stack

## Main results

* `Reader.State.exists_rests_flush`: at the end of a token the reader is at rest
* `Reader.State.flush_run`, `Reader.State.flush_run_flush`: a token may be completed before what
  follows it is read
* `Reader.State.finish_eq`: at the end of the text the last token is completed
-/

namespace GuardedLisp

namespace Reader

/-! ## The end of a token -/

/-- Whether the token that the reader is in the middle of may end before `rest`. -/
def Mode.EndsBefore (rest : List Char) : Mode → Prop
  | .atom _ _ => ∀ c ∈ rest.head?, Atom.isAtomChar c = false
  | .comma => rest.head? ≠ some '@'
  | .comment _ => EndsLine rest
  | .between | .failed _ => True
  | .string _ | .escape _ _ | .commentReturn _ => False

namespace State

variable {τ : Type} [Interns τ]

/-- What the reader keeps between two tokens. -/
def stack (s : State τ) : Stack τ := ⟨s.goal, s.symbols, s.forms, s.pending⟩

/-- The reader once the token at the end of the text is complete. -/
def flush (s : State τ) : State τ :=
  match s.mode with
  | .atom start chars => s.endAtom start chars
  | .comma => s.mark .unquote s.offset
  | .string _ | .escape _ _ => s.fail .endOfText s.offset
  | .commentReturn start => s.refuse start
  | .comment _ => { s with mode := .between }
  | .between | .failed _ => s

/-- The reader stands between two tokens with a given stack, or has failed if there is none. -/
def Rests (s : State τ) : Option (Stack τ) → Prop
  | some st => s.mode = .between ∧ s.stack = st
  | none => ∃ fault, s.mode = .failed fault

theorem rests_offset {s : State τ} {r : Option (Stack τ)} {offset : Nat} :
    Rests { s with offset } r ↔ s.Rests r := by
  cases r <;> rfl

theorem rests_fail (s : State τ) (cause : Cause) (offset : Nat) :
    (s.fail cause offset).Rests none :=
  ⟨_, rfl⟩

theorem unfailed_of_rests {s : State τ} {st : Stack τ} (h : s.Rests (some st)) : s.Unfailed := by
  intro fault failed
  cases h.1.symm.trans failed

theorem exists_rests_of_unfailed {s : State τ} {r : Option (Stack τ)} (h : s.Rests r)
    (unfailed : s.Unfailed) : ∃ st, r = some st := by
  cases r with
  | some st => exact ⟨st, rfl⟩
  | none =>
    obtain ⟨fault, failed⟩ := h
    exact absurd failed (unfailed fault)

theorem rests_supply (s : State τ) (datum : Datum) :
    (s.supply datum).Rests (some (s.stack.supply datum)) := ⟨rfl, rfl⟩

/-- The reader refuses an expression just where the stack has no room for one. -/
theorem starting_ready_or_refused (s next : State τ) (offset : Nat) :
    (s.stack.isReady = true ∧ s.starting offset next = next) ∨
      (s.stack.isReady = false ∧ (s.starting offset next).Rests none) := by
  have same : s.stack.isSated = s.isSated := rfl
  have stacked : s.stack.pending = s.pending := rfl
  unfold starting
  split
  · next sated => exact .inr ⟨by simp [Stack.isReady, same, sated], rests_fail ..⟩
  · next free =>
    split
    · next closed =>
      exact .inr ⟨by simp [Stack.isReady, stacked, hasRoom, closed, Open.isClosing], rests_fail ..⟩
    · next open_ =>
      have head : s.pending.head?.any Open.isClosing = false := by
        match pending : s.pending with
        | [] | .list _ :: _ | .dotted _ :: _ | .marked _ :: _ => rfl
        | .closing items tail :: outer => exact absurd pending (open_ items tail outer)
      split
      · next deep =>
        exact .inr ⟨by simp [Stack.isReady, stacked, hasRoom, Nat.not_lt.mpr deep], rests_fail ..⟩
      · next shallow =>
        refine .inl ⟨?_, rfl⟩
        simp [Stack.isReady, same, stacked, hasRoom, free, head, Nat.lt_of_not_le shallow]

theorem rests_starting (s : State τ) (offset : Nat) {next : State τ} {r : Option (Stack τ)}
    (h : next.Rests r) : (s.starting offset next).Rests (s.stack.starting r) := by
  obtain ⟨ready, started⟩ | ⟨busy, refused⟩ := s.starting_ready_or_refused next offset
  · rw [started, Stack.starting, if_pos ready]
    exact h
  · rw [Stack.starting, if_neg (by simp [busy])]
    exact refused

theorem rests_refuse (s : State τ) (offset : Nat) : (s.refuse offset).Rests none := by
  have started := rests_starting s offset (rests_fail s .misplaced offset)
  rwa [Stack.starting, ite_self] at started

theorem rests_close (s : State τ) (offset : Nat) :
    (s.close offset).Rests (s.stack.take .closing) := by
  match open_ : s.pending with
  | .list items :: outer =>
    simp only [close, Stack.take, stack, open_]
    exact rests_supply { s with pending := outer } _
  | .closing items tail :: outer =>
    simp only [close, Stack.take, stack, open_]
    exact rests_supply { s with pending := outer } _
  | [] | .dotted _ :: _ | .marked _ :: _ =>
    simp only [close, Stack.take, stack, open_]
    exact rests_refuse s offset

theorem rests_dot {s : State τ} (between : s.mode = .between) (offset : Nat) :
    (s.dot offset).Rests (s.stack.take .dot) := by
  match open_ : s.pending with
  | .list (item :: items) :: outer =>
    simp only [dot, Stack.take, stack, open_]
    exact ⟨between, rfl⟩
  | [] | .list [] :: _ | .dotted _ :: _ | .closing _ _ :: _ | .marked _ :: _ =>
    simp only [dot, Stack.take, stack, open_]
    exact rests_refuse s offset

theorem rests_mark (s : State τ) (keyword : Symbol) (offset : Nat) :
    (s.mark keyword offset).Rests
      (if s.pending.length + 1 < maxDepth then
        some { s.stack with pending := .marked keyword :: s.pending }
      else none) := by
  simp only [mark, List.length_cons]
  by_cases shallow : s.pending.length + 1 < maxDepth
  · rw [if_neg (Nat.not_le.mpr shallow), if_pos shallow]
    exact ⟨rfl, rfl⟩
  · rw [if_pos (Nat.not_lt.mp shallow), if_neg shallow]
    exact rests_fail ..

theorem rests_endAtom (s : State τ) (start : Nat) (chars : List Char) :
    (s.endAtom start chars).Rests
      ((atom? s.symbols chars.reverse).map (Stack.supply
        { s.stack with
          symbols := Interns.internAll s.symbols (Token.atom chars.reverse).names })) := by
  cases integer : Atom.integer? chars.reverse with
  | none =>
    simp only [endAtom, atom?, Token.names, integer]
    exact ⟨rfl, rfl⟩
  | some n =>
    cases word : word? n with
    | none =>
      simp only [endAtom, atom?, integer, word]
      exact rests_fail ..
    | some value =>
      simp only [endAtom, atom?, Token.names, integer, word]
      exact ⟨rfl, rfl⟩

theorem rests_run {s : State τ} (h : s.Rests none) (text : List Char) :
    (s.run text).Rests none := by
  obtain ⟨fault, failed⟩ := h
  exact ⟨fault, mode_run_of_failed failed text⟩

/-- Completing a token leaves the reader between two tokens, or with a fault. -/
theorem exists_rests_flush (s : State τ) : ∃ r, s.flush.Rests r := by
  cases current : s.mode with
  | between =>
    simp only [flush, current]
    exact ⟨some s.stack, current, rfl⟩
  | failed fault =>
    simp only [flush, current]
    exact ⟨none, fault, current⟩
  | atom start chars =>
    simp only [flush, current]
    exact ⟨_, rests_endAtom ..⟩
  | comma =>
    simp only [flush, current]
    exact ⟨_, rests_mark ..⟩
  | comment start =>
    simp only [flush, current]
    exact ⟨some s.stack, rfl, rfl⟩
  | commentReturn start =>
    simp only [flush, current]
    exact ⟨none, rests_refuse ..⟩
  | string chars | escape start chars =>
    simp only [flush, current]
    exact ⟨none, rests_fail ..⟩

/-- There is nothing to complete between two tokens. -/
theorem flush_of_rests {s : State τ} {r : Option (Stack τ)} (h : s.Rests r) : s.flush = s := by
  cases r with
  | some st => simp only [flush, h.1]
  | none =>
    obtain ⟨fault, failed⟩ := h
    simp only [flush, failed]

theorem consume_of_rests {s : State τ} {r : Option (Stack τ)} (h : s.Rests r) (c : Char) :
    s.consume c = s.resume c := by
  cases r with
  | some st => simp only [consume, resume, h.1]
  | none =>
    obtain ⟨fault, failed⟩ := h
    simp only [consume, resume, failed]

theorem offset_endAtom (s : State τ) (start : Nat) (chars : List Char) :
    (s.endAtom start chars).offset = s.offset := by
  unfold endAtom
  split
  · split <;> rfl
  · rfl

theorem offset_mark (s : State τ) (keyword : Symbol) (place : Nat) :
    (s.mark keyword place).offset = s.offset := by
  simp only [mark]
  split <;> rfl

theorem offset_refuse (s : State τ) (place : Nat) : (s.refuse place).offset = s.offset := by
  unfold refuse
  obtain started | ⟨cause, failed⟩ := starting_cases s (s.fail .misplaced place) place
  · rw [started, fail]
  · rw [failed, fail]

theorem offset_flush (s : State τ) : s.flush.offset = s.offset := by
  unfold flush
  split
  · exact offset_endAtom ..
  · exact offset_mark ..
  · rfl
  · rfl
  · exact offset_refuse ..
  all_goals rfl

theorem goal_flush (s : State τ) : s.flush.goal = s.goal := by
  unfold flush
  split
  · exact goal_endAtom ..
  · exact goal_mark ..
  · rfl
  · rfl
  · exact goal_starting _ _ rfl
  all_goals rfl

theorem offset_run (s : State τ) (text : List Char) :
    (s.run text).offset = s.offset + (String.ofList text).utf8ByteSize := by
  induction text generalizing s with
  | nil => rfl
  | cons c text ih =>
    have parts : String.ofList (c :: text) = String.singleton c ++ String.ofList text := by
      simp
    rw [run_cons, ih, parts, String.utf8ByteSize_append, String.utf8ByteSize_singleton,
      ← Nat.add_assoc]
    rfl

/-- A token that is complete may end before what neither goes on with an atom nor with a comma. -/
theorem endsBefore_of_flush {s : State τ} {rest : List Char} (h : s.flush.Unfailed)
    (stops : ∀ c ∈ rest.head?, Atom.isAtomChar c = false ∧ c ≠ '@')
    (line : ∀ start, s.mode = .comment start → EndsLine rest) : s.mode.EndsBefore rest := by
  cases current : s.mode with
  | between | failed fault => trivial
  | atom start chars => exact fun c head => (stops c head).1
  | comma => exact fun head => (stops '@' head).2 rfl
  | comment start => exact line start current
  | string chars | escape start chars =>
    simp only [flush, current] at h
    exact absurd h not_unfailed_fail
  | commentReturn start =>
    simp only [flush, current] at h
    exact absurd h not_unfailed_refuse

/-- The character that ends a token completes it. -/
theorem flush_step {s : State τ} {c : Char} {rest : List Char}
    (ends : s.mode.EndsBefore (c :: rest)) : (s.flush.step c).run rest = (s.step c).run rest := by
  obtain ⟨r, rests⟩ := s.exists_rests_flush
  cases current : s.mode with
  | between | failed fault => simp only [flush, current]
  | atom start chars =>
    rw [current] at ends
    have same : s.flush.step c = s.step c := by
      simp only [flush, current] at rests ⊢
      simp only [step, consume_of_rests rests, offset_endAtom, consume.eq_1 s, current,
        ends c rfl, Bool.false_eq_true, if_false]
    rw [same]
  | comma =>
    rw [current] at ends
    have other : c ≠ '@' := fun same => ends (congrArg some same)
    have same : s.flush.step c = s.step c := by
      simp only [flush, current] at rests ⊢
      simp only [step, consume_of_rests rests, offset_mark, consume.eq_1 s, current, other,
        if_false]
    rw [same]
  | comment start =>
    rw [current] at ends
    simp only [flush, current]
    obtain empty | ⟨after, same⟩ | ⟨after, same⟩ := ends
    · cases empty
    · obtain ⟨rfl, rfl⟩ := List.cons.inj same
      simp only [step, consume, current, if_true]
      rfl
    · obtain ⟨rfl, rfl⟩ := List.cons.inj same
      simp only [step, consume, current, show ('\r' : Char) ≠ '\n' by decide, if_true, if_false]
      rfl
  | string chars | escape start chars | commentReturn start =>
    rw [current] at ends
    exact ends.elim

/-- It makes no difference to what follows if the token before it is completed first. -/
theorem flush_run {s : State τ} {rest : List Char} (ends : s.mode.EndsBefore rest)
    (more : rest ≠ []) : s.flush.run rest = s.run rest := by
  obtain ⟨c, rest, rfl⟩ := List.exists_cons_of_ne_nil more
  rw [run_cons, run_cons, flush_step ends]

/-- So it is where nothing follows, if the token is completed then. -/
theorem flush_run_flush {s : State τ} {rest : List Char} (ends : s.mode.EndsBefore rest) :
    (s.flush.run rest).flush = (s.run rest).flush := by
  cases rest with
  | nil =>
    -- Completing a token twice is completing it once.
    obtain ⟨r, rests⟩ := s.exists_rests_flush
    rw [run_nil, run_nil, flush_of_rests rests]
  | cons c rest => rw [flush_run ends (List.cons_ne_nil c rest)]

/-- The token that the reader is in the middle of may end before `rest`, and leaves a given
stack. -/
structure Leaves (s : State τ) (rest : List Char) (r : Option (Stack τ)) : Prop where
  ends : s.mode.EndsBefore rest
  rests : s.flush.Rests r

theorem leaves_of_rests {s : State τ} {r : Option (Stack τ)} (h : s.Rests r) (rest : List Char) :
    s.Leaves rest r := by
  refine ⟨?_, by rwa [flush_of_rests h]⟩
  cases r with
  | some st => simp only [h.1, Mode.EndsBefore]
  | none =>
    obtain ⟨fault, failed⟩ := h
    simp only [failed, Mode.EndsBefore]

/-! ## The end of the text -/

/-- The end of the text completes the token before it, and then has nothing to be open. -/
theorem finish_eq (s : State τ) : s.finish = s.flush.settle := by
  cases current : s.mode with
  | commentReturn start =>
    obtain ⟨fault, failed⟩ := rests_refuse s start
    simp only [finish, flush, current, settle, failed]
  | between | atom start chars | string chars | escape start chars | comma | comment start
  | failed fault =>
    simp only [finish, flush, current, settle, fail]

theorem rests_settle {s : State τ} {r : Option (Stack τ)} (h : s.Rests r) :
    s.settle.Rests (r.filter Stack.isComplete) := by
  cases r with
  | none =>
    obtain ⟨fault, failed⟩ := h
    exact ⟨fault, by simp only [settle, failed]⟩
  | some st =>
    obtain ⟨between, rfl⟩ := h
    simp only [settle, between, Option.filter_some]
    by_cases complete : s.stack.isComplete = true
    · rw [if_pos complete, if_pos (by exact complete)]
      exact ⟨rfl, rfl⟩
    · rw [if_neg complete, if_neg (by exact complete)]
      exact rests_fail ..

end State

end Reader

end GuardedLisp
