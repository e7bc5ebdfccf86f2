import GuardedLisp.Proofs.Reader.Derivation
import GuardedLisp.Proofs.Reader.Stop

/-!
# The first form of a text

A text that begins with tokens does to the reader what these do to the stack, up to where the rest
begins.  So if it begins with the tokens of an expression, the reader finds a form there, whatever
comes after it and however many forms it looks for.

## Main definitions

* `Reader.Bare`: neither a blank nor a comment comes first
* `Reader.FirstForm`: a text begins with a form, before a bare rest

## Main results

* `Reader.State.leaves_of_begins`: the front of a text does what its tokens do
* `Reader.State.finish_run_bareReturn`: a carriage return in a comment is a fault
* `Reader.FirstForm.unique`: a text has one first form at most
* `Reader.FirstForm.leaves_run`, `Reader.FirstForm.scan_eq`: the reader finds the first form, and
  goes on behind it
-/

namespace GuardedLisp

namespace Reader

/-! ## The front of a text -/

/-- A token that ends before more of a text ends before that with anything after it. -/
theorem Token.endsBefore_of_append {token : Token} {text rest : List Char} (some : text ≠ [])
    (ends : token.EndsBefore (text ++ rest)) : token.EndsBefore text := by
  obtain ⟨c, text, rfl⟩ := List.exists_cons_of_ne_nil some
  cases token <;> exact ends

/-- A comment that ends before more of a text ends before that with anything after it, unless the
line end is parted. -/
theorem EndsLine.of_append {text rest : List Char} (ends : EndsLine (text ++ rest)) :
    EndsLine text ∨ text = ['\r'] ∧ ['\n'] <+: rest := by
  obtain none | feed | line := ends
  · exact .inl (.inl (List.append_eq_nil_iff.mp none).1)
  · obtain _ | ⟨c, text⟩ := text
    · exact .inl (.inl rfl)
    · obtain ⟨rfl, -⟩ := List.cons_prefix_cons.mp feed
      exact .inl (.inr (.inl (List.prefix_append ['\n'] text)))
  · obtain _ | ⟨c, _ | ⟨d, text⟩⟩ := text
    · exact .inl (.inl rfl)
    · obtain ⟨rfl, feed⟩ := List.cons_prefix_cons.mp line
      exact .inr ⟨rfl, feed⟩
    · obtain ⟨rfl, feed⟩ := List.cons_prefix_cons.mp line
      obtain ⟨rfl, -⟩ := List.cons_prefix_cons.mp feed
      exact .inl (.inr (.inr (List.prefix_append ['\r', '\n'] text)))

theorem Begins.eq_nil_self {rest : List Char} {tokens : List Token}
    (begins : Begins rest tokens rest) : tokens = [] := by
  have begins : Begins ([] ++ rest) tokens ([] ++ rest) := begins
  exact begins.eq_nil .nothing

namespace State

/-- **The front of a text does to the reader what its tokens do to the stack**, up to the rest.  But
if that begins in the middle of a line end, after a comment, the reader is there too. -/
theorem leaves_of_begins {front rest : List Char} {tokens : List Token}
    (begins : Begins (front ++ rest) tokens rest) {s : State} (between : s.mode = .between) :
    (s.run front).Leaves rest (s.stack.takeAll tokens) ∨
      (∃ start, (s.run front).mode = .commentReturn start) ∧ ['\n'] <+: rest := by
  -- Induction on the tokens; at each step the reader stands between two of them.
  generalize same : front ++ rest = text at begins
  induction begins generalizing front s with
  | nil =>
    obtain rfl := List.append_left_eq_self.mp same
    have rests : s.Rests (some s.stack) := ⟨between, rfl⟩
    exact .inl (leaves_of_rests rests _)
  | blank blank begins ih =>
    obtain ⟨after, rfl⟩ := begins.suffix
    obtain rfl : front = _ :: after := List.append_cancel_right same
    rw [run_cons, step_between between, between_eq, if_pos blank]
    exact ih (s := { s with offset := _ }) between rfl
  | @comment body _ rest tokens noFeed noReturn ends begins ih =>
    obtain ⟨after, rfl⟩ := begins.suffix
    obtain rfl : front = ';' :: (body ++ after) :=
      List.append_cancel_right (same.trans (by simp))
    have begun := step_comment between
    obtain ⟨offset, ran⟩ := run_comment (s := s.step ';') (by rw [begun]) noFeed noReturn
    rw [run_cons, run_append, ran, begun]
    cases after with
    | nil =>
      obtain rfl := begins.eq_nil_self
      exact .inl ⟨ends, rfl, rfl⟩
    | cons c after =>
      obtain ends | ⟨parted, feed⟩ := EndsLine.of_append ends
      · rw [← flush_run (by exact ends) (List.cons_ne_nil c after)]
        exact ih (s := { s with mode := .between, offset }) rfl rfl
      · rw [parted]
        exact .inr ⟨⟨s.offset, rfl⟩, feed⟩
  | @token lexeme _ rest token tokens written ends noAt begins ih =>
    obtain ⟨after, rfl⟩ := begins.suffix
    obtain rfl : front = lexeme ++ after := List.append_cancel_right (same.trans (by simp))
    rw [run_append]
    cases after with
    | nil =>
      obtain rfl := begins.eq_nil_self
      simp only [Stack.takeAll_cons, Stack.takeAll_nil, Option.bind_fun_some]
      exact .inl (leaves_run_lexeme between written ends noAt)
    | cons c after =>
      have leaves := leaves_run_lexeme between written
        (Token.endsBefore_of_append (List.cons_ne_nil c after) ends) noAt
      rw [← flush_run leaves.ends (List.cons_ne_nil c after), Stack.takeAll_cons]
      have rests := leaves.rests
      cases taken : s.stack.take token with
      | none =>
        rw [taken] at rests
        exact .inl (leaves_of_rests (rests_run rests _) rest)
      | some st =>
        rw [taken] at rests
        obtain ⟨between, rfl⟩ := rests
        exact ih between rfl

end State

/-! ## What ends a comment -/

/-- A line goes up to its end, unless there is a carriage return before that. -/
theorem exists_line (text : List Char) : ∃ body rest, text = body ++ rest ∧
    '\n' ∉ body ∧ '\r' ∉ body ∧
      (EndsLine rest ∨ ∃ after, rest = '\r' :: after ∧ after.head? ≠ some '\n') := by
  induction text with
  | nil => exact ⟨[], [], rfl, List.not_mem_nil, List.not_mem_nil, .inl (.inl rfl)⟩
  | cons c text ih =>
    by_cases feed : c = '\n'
    · subst feed
      exact ⟨[], _, rfl, List.not_mem_nil, List.not_mem_nil, .inl (.inr (.inl ⟨text, rfl⟩))⟩
    by_cases ret : c = '\r'
    · subst ret
      refine ⟨[], _, rfl, List.not_mem_nil, List.not_mem_nil, ?_⟩
      by_cases line : text.head? = some '\n'
      · obtain ⟨after, rfl⟩ := List.head?_eq_some_iff.mp line
        exact .inl (.inr (.inr ⟨after, rfl⟩))
      · exact .inr ⟨text, rfl, line⟩
    · obtain ⟨body, rest, rfl, noFeed, noReturn, ends⟩ := ih
      exact ⟨c :: body, rest, rfl, List.not_mem_cons_of_ne_of_not_mem (Ne.symm feed) noFeed,
        List.not_mem_cons_of_ne_of_not_mem (Ne.symm ret) noReturn, ends⟩

namespace State

/-- A fault stays, and so does all else but the place. -/
theorem finish_run_of_failed {s : State} {fault : Fault} (failed : s.mode = .failed fault)
    (text : List Char) : ∃ offset, (s.run text).finish = { s with offset } := by
  induction text generalizing s with
  | nil =>
    refine ⟨s.offset, ?_⟩
    show s.finish = s
    simp only [finish, failed]
  | cons c text ih =>
    have stays : s.step c = { s with offset := s.offset + c.utf8Size } := by
      simp only [step, consume, failed]
    rw [run_cons, stays]
    exact ih (s := { s with offset := s.offset + c.utf8Size }) failed

/-- A carriage return in the middle of a comment refuses the comment. -/
theorem finish_run_bareReturn {s : State} {start : Nat} (current : s.mode = .comment start)
    {body : List Char} (noFeed : '\n' ∉ body) (noReturn : '\r' ∉ body) {after : List Char}
    (bare : after.head? ≠ some '\n') :
    ∃ place offset, (s.run (body ++ '\r' :: after)).finish =
      { refuse { s with mode := .commentReturn start, offset := place } start with offset } := by
  obtain ⟨reached, same⟩ := run_comment current noFeed noReturn
  have returned : (s.run body).step '\r' =
      { s with mode := .commentReturn start, offset := reached + 1 } := by
    rw [same]
    rfl
  rw [run_append, run_cons, returned]
  refine ⟨reached + 1, ?_⟩
  cases after with
  | nil => exact ⟨_, by rw [run_nil, finish]⟩
  | cons c after =>
    have other : c ≠ '\n' := fun feed => bare (congrArg some feed)
    rw [run_cons]
    simp only [step, consume, other, if_false]
    generalize refused : refuse (_ : State) start = t
    obtain ⟨fault, failed⟩ := refused ▸ rests_refuse _ start
    exact finish_run_of_failed (s := { t with offset := reached + 1 + c.utf8Size }) failed after

end State

/-! ## The first form -/

/-- Neither a blank nor a comment comes first. -/
def Bare (text : List Char) : Prop := ∀ rest, Begins text [] rest → rest = text

theorem Bare.ne_blank {c : Char} {text : List Char} (bare : Bare (c :: text)) :
    isBlank c = false := by
  cases blank : isBlank c with
  | false => rfl
  | true => exact absurd (bare text (.blank blank (.nil text))).symm (List.cons_ne_self c text)

/-- Blanks and comments come to an end. -/
theorem exists_bare (text : List Char) : ∃ rest, Begins text [] rest ∧ Bare rest := by
  induction size : text.length using Nat.strongRecOn generalizing text with
  | ind size ih =>
    by_cases bare : Bare text
    · exact ⟨text, .nil text, bare⟩
    · obtain ⟨after, skipped, moved⟩ : ∃ after, Begins text [] after ∧ after ≠ text := by
        simpa [Bare] using bare
      have shorter : after.length < text.length :=
        Nat.lt_of_le_of_ne skipped.suffix.length_le fun same =>
          moved (skipped.suffix.eq_of_length same)
      obtain ⟨rest, more, bare⟩ := ih after.length (size ▸ shorter) after rfl
      exact ⟨rest, skipped.trans more, bare⟩

/-- A text begins with the tokens of a form, and with the blanks and comments that follow it.  The
form has the symbols of a table once those of the tokens are in it. -/
structure FirstForm (table : SymbolTable) (text : List Char) (tokens : List Token) (datum : Datum)
    (rest : List Char) : Prop where
  begins : Begins text tokens rest
  derives : Expression (table.insertAll (tokens.flatMap Token.names)) 0 tokens datum
  bare : Bare rest

variable {table : SymbolTable}

/-- A reader that has found the one form that it looks for takes no more tokens. -/
theorem Stack.take_of_isSated {st : Stack} (sated : st.isSated = true) (token : Token) :
    st.take token = none := by
  have busy : ¬ st.isReady = true := by simp [isReady, sated]
  have outside : st.pending = [] := by
    simp only [isSated, Bool.and_eq_true, List.isEmpty_iff] at sated
    exact sated.1.2
  cases token with
  | closing | dot => simp only [take, outside]
  | opening | mark keyword | string text | atom chars => simp only [take, starting, if_neg busy]

/-- A form leaves a stack that has nothing before it with the form only. -/
theorem takeAll_of_form {tokens : List Token} {datum : Datum}
    (derives : Expression (table.insertAll (tokens.flatMap Token.names)) 0 tokens datum)
    (goal : Goal) :
    (Stack.initial goal table).takeAll tokens =
      some ⟨goal, table.insertAll (tokens.flatMap Token.names), [datum], []⟩ := by
  have ready : (Stack.initial goal table).isReady = true := by
    simp [Stack.isReady, Stack.isSated, Stack.initial, hasRoom, maxDepth]
  exact takeAll_of_expression derives ready rfl List.prefix_rfl

/-- No form is the beginning of another one. -/
theorem Expression.eq_nil_of_append {tokens more : List Token} {datum other : Datum}
    (derives : Expression (table.insertAll (tokens.flatMap Token.names)) 0 tokens datum)
    (longer : Expression (table.insertAll ((tokens ++ more).flatMap Token.names)) 0
      (tokens ++ more) other) :
    more = [] := by
  have taken := takeAll_of_form longer .one
  rw [Stack.takeAll_append, takeAll_of_form derives, Option.bind_some] at taken
  cases more with
  | nil => rfl
  | cons token more =>
    rw [Stack.takeAll_cons, Stack.take_of_isSated rfl] at taken
    cases taken

/-- **A text has one first form at most.** -/
theorem FirstForm.unique {text rest rest' : List Char} {tokens tokens' : List Token}
    {datum datum' : Datum} (form : FirstForm table text tokens datum rest)
    (again : FirstForm table text tokens' datum' rest') :
    tokens = tokens' ∧ datum = datum' ∧ rest = rest' := by
  have same : tokens = tokens' := by
    obtain ⟨more, -, rfl⟩ | ⟨more, -, rfl⟩ := form.begins.goes_on again.begins
    · rw [form.derives.eq_nil_of_append again.derives, List.append_nil]
    · rw [again.derives.eq_nil_of_append form.derives, List.append_nil]
  subst same
  refine ⟨rfl, ?_, ?_⟩
  · have taken := takeAll_of_form form.derives .one
    rw [takeAll_of_form again.derives, Option.some.injEq, Stack.mk.injEq] at taken
    exact (List.cons.inj taken.2.2.1).1.symm
  · obtain ⟨more, skipped, none⟩ | ⟨more, skipped, none⟩ := form.begins.goes_on again.begins
    · rw [List.append_right_eq_self.mp none.symm] at skipped
      exact (form.bare rest' skipped).symm
    · rw [List.append_right_eq_self.mp none.symm] at skipped
      exact again.bare rest skipped

/-- **The first form is found**, whatever comes after it and however many forms are looked for. -/
theorem FirstForm.leaves_run {front rest : List Char} {tokens : List Token} {datum : Datum}
    (form : FirstForm table (front ++ rest) tokens datum rest) (goal : Goal) :
    ((State.initial goal table).run front).Leaves rest
      (some ⟨goal, table.insertAll (tokens.flatMap Token.names), [datum], []⟩) := by
  obtain leaves | ⟨-, after, rfl⟩ := State.leaves_of_begins form.begins
    (s := State.initial goal table) rfl
  · have taken : (State.initial goal table).stack.takeAll tokens = _ :=
      takeAll_of_form form.derives goal
    rwa [taken] at leaves
  · exact absurd form.bare.ne_blank (by decide)

/-- From there on the text is read as it would be after the form. -/
theorem FirstForm.scan_eq {text rest : List Char} {tokens : List Token} {datum : Datum}
    (form : FirstForm table text tokens datum rest) (goal : Goal) :
    ∃ place, place + bytes rest = bytes text ∧
      scan goal text table =
        ((State.mk goal (table.insertAll (tokens.flatMap Token.names)) [datum] [] .between
          place).run rest).finish := by
  obtain ⟨front, rfl⟩ := form.begins.suffix
  obtain ⟨ends, between, stack⟩ := form.leaves_run goal
  refine ⟨bytes front, (bytes_append front rest).symm, ?_⟩
  have same : ((State.initial goal table).run front).flush =
      ⟨goal, table.insertAll (tokens.flatMap Token.names), [datum], [], .between,
        bytes front⟩ := by
    have place : ((State.initial goal table).run front).flush.offset = bytes front := by
      rw [State.offset_flush, State.offset_run]
      exact Nat.zero_add _
    generalize ((State.initial goal table).run front).flush = s at between stack place
    obtain ⟨goal', symbols', forms, pending, mode, offset⟩ := s
    simp only [State.stack, Stack.mk.injEq] at between stack place
    obtain ⟨rfl, rfl, rfl, rfl⟩ := stack
    rw [between, place]
  rw [scan, State.run_append, State.finish_eq, State.finish_eq, ← State.flush_run_flush ends, same]

end Reader

end GuardedLisp
