import GuardedLisp.Proofs.Reader.Rest

/-!
# Reading token by token

A text that splits into tokens does to the reader what its tokens do to the stack, one after
another; and a text that does not split is a fault.

## Main results

* `Reader.State.rests_of_splits`: a text does what its tokens do
* `Reader.State.exists_splits`: a text without faults splits into tokens
* `Reader.read_eq_ok_iff_takeAll`: a text is read as its tokens are taken
-/

namespace GuardedLisp

namespace Reader

namespace State

variable {τ : Type} [Interns τ]

/-! ## Inside a token -/

/-- An atom goes on as long as there are atom characters. -/
theorem run_atom {s : State τ} {start : Nat} {chars : List Char}
    (current : s.mode = .atom start chars) {word : List Char}
    (all : ∀ c ∈ word, Atom.isAtomChar c = true) :
    ∃ offset, s.run word = { s with mode := .atom start (word.reverse ++ chars), offset } := by
  induction word generalizing s chars with
  | nil => exact ⟨s.offset, by rw [run_nil, List.reverse_nil, List.nil_append, ← current]⟩
  | cons c word ih =>
    rw [List.forall_mem_cons] at all
    have next : (s.step c).mode = .atom start (c :: chars) := by
      simp only [step, consume, current, all.1, if_true]
    obtain ⟨offset, same⟩ := ih next all.2
    refine ⟨offset, ?_⟩
    rw [run_cons, same]
    simp only [step, consume, current, all.1, if_true, List.reverse_cons, List.append_assoc,
      List.cons_append, List.nil_append]

/-- A string goes on as long as its characters are spelled as they should be. -/
theorem run_spelled {s : State τ} {chars : List Char} (current : s.mode = .string chars)
    {raw text : List Char} (spelled : Spelled raw text) :
    ∃ offset, s.run raw = { s with mode := .string (text.reverse ++ chars), offset } := by
  induction spelled generalizing s chars with
  | nil => exact ⟨s.offset, by rw [run_nil, List.reverse_nil, List.nil_append, ← current]⟩
  | @plain c raw text noQuote noEscape _ ih =>
    have next : (s.step c).mode = .string (c :: chars) := by
      simp only [step, consume, current, noQuote, noEscape, if_false]
    obtain ⟨offset, same⟩ := ih next
    refine ⟨offset, ?_⟩
    rw [run_cons, same]
    simp only [step, consume, current, noQuote, noEscape, if_false, List.reverse_cons,
      List.append_assoc, List.cons_append, List.nil_append]
  | @escape c d raw text known _ ih =>
    have escaped : unescape? c = some d := unescape?_eq_some_iff.mpr known
    have next : ((s.step '\\').step c).mode = .string (d :: chars) := by
      simp [step, consume, current, escaped]
    obtain ⟨offset, same⟩ := ih next
    refine ⟨offset, ?_⟩
    rw [run_cons, run_cons, same]
    simp [step, consume, current, escaped]

/-- A comment goes on up to the end of its line. -/
theorem run_comment {s : State τ} {start : Nat} (current : s.mode = .comment start)
    {body : List Char} (noFeed : '\n' ∉ body) (noReturn : '\r' ∉ body) :
    ∃ offset, s.run body = { s with mode := .comment start, offset } := by
  induction body generalizing s with
  | nil => exact ⟨s.offset, by rw [run_nil, ← current]⟩
  | cons c body ih =>
    obtain ⟨isFeed, noFeed⟩ := List.ne_and_not_mem_of_not_mem_cons noFeed
    obtain ⟨isReturn, noReturn⟩ := List.ne_and_not_mem_of_not_mem_cons noReturn
    have same : s.step c = { s with mode := .comment start, offset := s.offset + c.utf8Size } := by
      simp only [step, consume, current, isFeed.symm, isReturn.symm, if_false]
    obtain ⟨offset, rest⟩ := ih (s := s.step c) (by rw [same]) noFeed noReturn
    exact ⟨offset, by rw [run_cons, rest, same]⟩

/-! ## Tokens -/

theorem step_between {s : State τ} (between : s.mode = .between) (c : Char) :
    s.step c = { s.between s.offset c with offset := s.offset + c.utf8Size } := by
  simp only [step, consume, between]

theorem step_comment {s : State τ} (between : s.mode = .between) :
    s.step ';' = { s with mode := .comment s.offset, offset := s.offset + 1 } := by
  rw [step_between between]
  rfl

theorem between_of_isAtomChar {s : State τ} {c : Char} (h : Atom.isAtomChar c = true)
    (place : Nat) : s.between place c = s.starting place { s with mode := .atom place [c] } := by
  have other {d : Char} (not : Atom.isAtomChar d = false) : c ≠ d := by
    rintro rfl
    exact Bool.false_ne_true (not.symm.trans h)
  have noBlank : ¬ isBlank c = true := by
    simp [isBlank, other (d := ' ') (by decide), other (d := '\t') (by decide),
      other (d := '\r') (by decide), other (d := '\n') (by decide)]
  rw [between_eq, if_neg noBlank, if_neg (other (by decide)), if_neg (other (by decide)),
    if_neg (other (by decide)), opened, if_neg (other (by decide)), if_neg (other (by decide)),
    if_neg (other (by decide)), if_neg (other (by decide)), if_neg (other (by decide)), if_pos h]

/-- A token that starts an expression does what it does if one may start. -/
theorem leaves_run_starting {s : State τ} (next : State τ) {c : Char} {more rest : List Char}
    {r : Option (Stack τ)} (between : s.mode = .between)
    (starts : s.between s.offset c = s.starting s.offset next)
    (leaves : (State.run { next with offset := s.offset + c.utf8Size } more).Leaves rest r) :
    (s.run (c :: more)).Leaves rest (s.stack.starting r) := by
  rw [run_cons, step_between between, starts]
  obtain ⟨ready, started⟩ | ⟨busy, refused⟩ := s.starting_ready_or_refused next s.offset
  · rw [started, Stack.starting, if_pos ready]
    exact leaves
  · rw [Stack.starting, if_neg (by simp [busy])]
    exact leaves_of_rests (rests_run (rests_offset.mpr refused) more) rest

/-- A token does to the reader what it does to the stack. -/
theorem leaves_run_lexeme {s : State τ} (between : s.mode = .between) {lexeme rest : List Char}
    {token : Token} (written : Lexeme lexeme token) (ends : token.EndsBefore rest)
    (noAt : lexeme = [','] → rest.head? ≠ some '@') :
    (s.run lexeme).Leaves rest (s.stack.take token) := by
  cases written with
  | opening =>
    refine leaves_run_starting { s with pending := .list [] :: s.pending } between rfl ?_
    have rests : Rests { s with pending := .list [] :: s.pending }
        (some { s.stack with pending := .list [] :: s.pending }) := ⟨between, rfl⟩
    exact leaves_of_rests (rests_offset.mpr rests) rest
  | closing =>
    rw [run_cons, step_between between]
    exact leaves_of_rests (rests_offset.mpr (rests_close s s.offset)) rest
  | dot =>
    rw [run_cons, step_between between]
    exact leaves_of_rests (rests_offset.mpr (rests_dot between s.offset)) rest
  | quote =>
    refine leaves_run_starting (s.mark .quote (s.offset + 1)) between rfl ?_
    exact leaves_of_rests (rests_offset.mpr (rests_mark ..)) rest
  | quasiquote =>
    refine leaves_run_starting (s.mark .quasiquote (s.offset + 1)) between rfl ?_
    exact leaves_of_rests (rests_offset.mpr (rests_mark ..)) rest
  | unquote =>
    refine leaves_run_starting { s with mode := .comma } between rfl ?_
    exact ⟨noAt rfl, rests_mark { s with mode := .comma, offset := _ } .unquote _⟩
  | unquoteSplicing =>
    refine leaves_run_starting { s with mode := .comma } between rfl ?_
    exact leaves_of_rests (rests_offset.mpr (rests_mark ..)) rest
  | @string raw text spelled =>
    refine leaves_run_starting { s with mode := .string [] } between rfl ?_
    obtain ⟨offset, same⟩ :=
      run_spelled (s := { s with mode := .string [], offset := _ }) rfl spelled
    rw [run_append, same, run_cons, run_nil]
    simp only [step, consume, if_true, List.append_nil, List.reverse_reverse]
    exact leaves_of_rests (rests_offset.mpr (rests_supply ..)) rest
  | @atom chars some all =>
    obtain ⟨c, word, rfl⟩ := List.exists_cons_of_ne_nil some
    rw [List.forall_mem_cons] at all
    refine leaves_run_starting _ between (between_of_isAtomChar all.1 s.offset) ?_
    obtain ⟨offset, same⟩ :=
      run_atom (s := { s with mode := .atom s.offset [c], offset := _ }) rfl all.2
    rw [same]
    refine ⟨ends, ?_⟩
    have ended := rests_endAtom { s with mode := .atom s.offset (word.reverse ++ [c]), offset }
      s.offset (word.reverse ++ [c])
    rw [List.reverse_append, List.reverse_reverse] at ended
    exact ended

/-- No token is written with an at sign at its start. -/
theorem not_splits_at {rest : List Char} {tokens : List Token} : ¬ Splits ('@' :: rest) tokens := by
  generalize same : '@' :: rest = text
  intro h
  cases h with
  | nil => cases same
  | blank blank _ =>
    obtain ⟨rfl, rfl⟩ := List.cons.inj same
    exact absurd blank (by decide)
  | comment => exact absurd (List.cons.inj same).1 (by decide)
  | token written _ _ =>
    cases written with
    | @atom chars some all =>
      obtain ⟨c, word, rfl⟩ := List.exists_cons_of_ne_nil some
      obtain ⟨rfl, rfl⟩ := List.cons.inj same
      exact absurd (all '@' List.mem_cons_self) (by decide)
    | _ => exact absurd (List.cons.inj same).1 (by decide)

/-- **A text does to the reader what its tokens do to the stack.** -/
theorem rests_of_splits {text : List Char} {tokens : List Token} (splits : Splits text tokens)
    {s : State τ} (between : s.mode = .between) :
    (s.run text).flush.Rests (s.stack.takeAll tokens) := by
  -- Induction on how the text splits; the invariant is that the reader starts between two tokens.
  induction splits generalizing s with
  | nil =>
    have rests : s.Rests (some s.stack) := ⟨between, rfl⟩
    rwa [run_nil, flush_of_rests rests]
  | @blank c rest tokens blank _ ih =>
    rw [run_cons, step_between between, between_eq, if_pos blank]
    exact ih (s := { s with offset := _ }) between
  | @comment body rest tokens noFeed noReturn ends _ ih =>
    have begun := step_comment between
    obtain ⟨offset, same⟩ := run_comment (s := s.step ';') (by rw [begun]) noFeed noReturn
    rw [run_cons, run_append, same, ← flush_run_flush (by exact ends), begun]
    exact ih (s := { s with mode := .between, offset }) rfl
  | @token lexeme rest token tokens written ends splits ih =>
    have noAt : lexeme = [','] → rest.head? ≠ some '@' := by
      intro _ at_
      obtain ⟨after, rfl⟩ := List.head?_eq_some_iff.mp at_
      exact not_splits_at splits
    have leaves := leaves_run_lexeme between written ends noAt
    rw [run_append, ← flush_run_flush leaves.ends, Stack.takeAll_cons]
    have rests := leaves.rests
    cases taken : s.stack.take token with
    | none =>
      rw [taken] at rests
      have failed := rests_run rests rest
      rwa [flush_of_rests failed]
    | some st =>
      rw [taken] at rests
      obtain ⟨between, rfl⟩ := rests
      exact ih between

/-! ## Texts without faults -/

theorem unfailed_of_flush {s : State τ} (h : s.flush.Unfailed) : s.Unfailed :=
  fun fault failed => h fault (by simp [flush, failed])

/-- Whether a text begins with what may stand in a string, up to its second quote. -/
def EndsString (text : List Char) : Prop :=
  ∃ raw spelling rest, text = raw ++ '"' :: rest ∧ Spelled raw spelling

/-- A string that is no fault has an end. -/
theorem endsString_of_unfailed (text : List Char) :
    (∀ {s : State τ} {chars}, s.mode = .string chars → (s.run text).flush.Unfailed →
      EndsString text) ∧
    (∀ {s : State τ} {start chars}, s.mode = .escape start chars → (s.run text).flush.Unfailed →
      ∃ c d rest, text = c :: rest ∧ (c, d) ∈ escapes ∧ EndsString rest) := by
  -- Both halves go along the text together, since an escape leads back into the string.
  induction text with
  | nil =>
    constructor <;> intros <;> next current h =>
      simp only [run_nil, flush, current] at h
      exact absurd h not_unfailed_fail
  | cons c text ih =>
    constructor
    · intro s chars current h
      by_cases quote : c = '"'
      · subst quote
        exact ⟨[], [], text, rfl, .nil⟩
      by_cases backslash : c = '\\'
      · subst backslash
        have escaping : (s.step '\\').mode = .escape s.offset chars := by
          simp [step, consume, current]
        obtain ⟨c, d, rest, rfl, known, raw, spelling, rest, rfl, spelled⟩ := ih.2 escaping h
        exact ⟨'\\' :: c :: raw, d :: spelling, rest, rfl, .escape known spelled⟩
      · have next : (s.step c).mode = .string (c :: chars) := by
          simp only [step, consume, current, quote, backslash, if_false]
        obtain ⟨raw, spelling, rest, rfl, spelled⟩ := ih.1 next h
        exact ⟨c :: raw, c :: spelling, rest, rfl, .plain quote backslash spelled⟩
    · intro s start chars current h
      cases escaped : unescape? c with
      | none =>
        have failed : (s.step c).mode = .failed ⟨.unknownEscape, start⟩ := by
          simp [step, consume, current, escaped, fail]
        have begun : (s.step c).Unfailed := unfailed_of_run (unfailed_of_flush h)
        exact absurd failed (begun _)
      | some d =>
        have next : (s.step c).mode = .string (d :: chars) := by
          simp [step, consume, current, escaped]
        exact ⟨c, d, text, rfl, unescape?_eq_some_iff.mp escaped, ih.1 next h⟩

/-- A comment that is no fault ends with its line or with the text. -/
theorem exists_comment {s : State τ} {start : Nat} {text : List Char}
    (current : s.mode = .comment start) (h : (s.run text).flush.Unfailed) :
    ∃ body rest, text = body ++ rest ∧ '\n' ∉ body ∧ '\r' ∉ body ∧ EndsLine rest := by
  induction text generalizing s with
  | nil => exact ⟨[], [], rfl, List.not_mem_nil, List.not_mem_nil, .inl rfl⟩
  | cons c text ih =>
    by_cases feed : c = '\n'
    · subst feed
      exact ⟨[], _, rfl, List.not_mem_nil, List.not_mem_nil, .inr (.inl ⟨text, rfl⟩)⟩
    by_cases ret : c = '\r'
    · subst ret
      have returned : (s.step '\r').mode = .commentReturn start := by
        simp [step, consume, current]
      cases text with
      | nil =>
        simp only [run_cons, run_nil, flush, returned] at h
        exact absurd h not_unfailed_refuse
      | cons c text =>
        by_cases feed : c = '\n'
        · subst feed
          exact ⟨[], _, rfl, List.not_mem_nil, List.not_mem_nil, .inr (.inr ⟨text, rfl⟩)⟩
        · -- A carriage return that begins no line end refuses the comment.
          have begun : ((s.step '\r').step c).Unfailed := unfailed_of_run (unfailed_of_flush h)
          rw [step, consume, returned] at begun
          simp only [feed, if_false] at begun
          exact absurd begun not_unfailed_refuse
    · have next : (s.step c).mode = .comment start := by
        simp only [step, consume, current, feed, ret, if_false]
      obtain ⟨body, rest, rfl, noFeed, noReturn, ends⟩ := ih next h
      exact ⟨c :: body, rest, rfl, List.not_mem_cons_of_ne_of_not_mem (Ne.symm feed) noFeed,
        List.not_mem_cons_of_ne_of_not_mem (Ne.symm ret) noReturn, ends⟩

/-- Where no blank or comment begins, and no fault is, a token begins. -/
theorem exists_lexeme {s : State τ} (between : s.mode = .between) {c : Char} {text : List Char}
    (blank : ¬ isBlank c = true) (comment : c ≠ ';') (h : (s.run (c :: text)).flush.Unfailed) :
    ∃ lexeme token rest, c :: text = lexeme ++ rest ∧ rest.length ≤ text.length ∧
      Lexeme lexeme token ∧ token.EndsBefore rest ∧ (lexeme = [','] → rest.head? ≠ some '@') := by
  have begun : (s.step c).Unfailed := unfailed_of_run (unfailed_of_flush h)
  have single {token : Token} (written : Lexeme [c] token) (ends : token.EndsBefore text)
      (noAt : [c] = [','] → text.head? ≠ some '@') :
      ∃ lexeme token rest, c :: text = lexeme ++ rest ∧ rest.length ≤ text.length ∧
        Lexeme lexeme token ∧ token.EndsBefore rest ∧ (lexeme = [','] → rest.head? ≠ some '@') :=
    ⟨[c], token, text, rfl, Nat.le_refl _, written, ends, noAt⟩
  by_cases closing : c = ')'
  · subst closing
    exact single .closing trivial (by simp)
  by_cases dot : c = '.'
  · subst dot
    exact single .dot trivial (by simp)
  by_cases opening : c = '('
  · subst opening
    exact single .opening trivial (by simp)
  by_cases string : c = '"'
  · subst string
    have started : s.starting s.offset { s with mode := .string [] } =
        { s with mode := .string [] } :=
      starting_eq (by rwa [step_between between] at begun)
    have current : (s.step '"').mode = .string [] := by
      rw [step_between between]
      exact congrArg State.mode started
    obtain ⟨raw, spelling, rest, rfl, spelled⟩ := (endsString_of_unfailed text).1 current h
    exact ⟨'"' :: (raw ++ ['"']), _, rest, by simp, by simp; omega, .string spelled, trivial,
      by simp⟩
  by_cases quote : c = '\x27'
  · subst quote
    exact single .quote trivial (by simp)
  by_cases quasiquote : c = '\x60'
  · subst quasiquote
    exact single .quasiquote trivial (by simp)
  by_cases comma : c = ','
  · subst comma
    by_cases at_ : text.head? = some '@'
    · obtain ⟨rest, rfl⟩ := List.head?_eq_some_iff.mp at_
      exact ⟨[',', '@'], _, rest, rfl, by simp, .unquoteSplicing, trivial, by simp⟩
    · exact single .unquote trivial fun _ => at_
  by_cases atom : Atom.isAtomChar c = true
  · refine ⟨c :: text.takeWhile Atom.isAtomChar, _, text.dropWhile Atom.isAtomChar, ?_, ?_,
      .atom (List.cons_ne_nil _ _) ?_, ?_, ?_⟩
    · rw [List.cons_append, List.takeWhile_append_dropWhile]
    · exact (List.dropWhile_suffix _).length_le
    · exact List.forall_mem_cons.mpr ⟨atom, fun d mem =>
        List.all_eq_true.mp List.all_takeWhile d mem⟩
    · intro d head
      simpa [Option.mem_def.mp head] using List.head?_dropWhile_not Atom.isAtomChar text
    · intro same
      exact absurd (List.cons.inj same).1 comma
  · rw [step_between between, between_eq, if_neg blank, if_neg comment, if_neg closing, if_neg dot,
      opened, if_neg opening, if_neg string, if_neg quote, if_neg quasiquote, if_neg comma,
      if_neg atom] at begun
    exact absurd (show (s.refuse s.offset).Unfailed from begun) not_unfailed_refuse

/-- **A text without faults splits into tokens.** -/
theorem exists_splits {text : List Char} {s : State τ} (between : s.mode = .between)
    (h : (s.run text).flush.Unfailed) : ∃ tokens, Splits text tokens := by
  -- A token may have several characters, so the induction is on the length of the text.
  induction size : text.length using Nat.strongRecOn generalizing s text with
  | ind size ih =>
    match text with
    | [] => exact ⟨[], .nil⟩
    | c :: text =>
      have shorter {rest : List Char} (small : rest.length ≤ text.length) {t : State τ}
          (between : t.mode = .between) (h : (t.run rest).flush.Unfailed) :
          ∃ tokens, Splits rest tokens :=
        ih rest.length (by simp [← size]; omega) between h rfl
      by_cases blank : isBlank c = true
      · rw [run_cons, step_between between, between_eq, if_pos blank] at h
        have still : ({ s with offset := s.offset + c.utf8Size } : State τ).mode = .between :=
          between
        obtain ⟨tokens, splits⟩ := shorter (Nat.le_refl _) still h
        exact ⟨tokens, .blank blank splits⟩
      by_cases comment : c = ';'
      · subst comment
        have begun : (s.step ';').mode = .comment s.offset := by
          rw [step_between between]
          rfl
        obtain ⟨body, rest, rfl, noFeed, noReturn, ends⟩ := exists_comment begun h
        obtain ⟨offset, same⟩ := run_comment begun noFeed noReturn
        rw [run_cons, run_append, same, ← flush_run_flush (by exact ends)] at h
        obtain ⟨tokens, splits⟩ := shorter (by simp) rfl h
        exact ⟨tokens, .comment noFeed noReturn ends splits⟩
      · -- What is left after the token has no fault either, or there would be one in the whole.
        obtain ⟨lexeme, token, rest, parts, small, written, ends, noAt⟩ :=
          exists_lexeme between blank comment h
        have leaves := leaves_run_lexeme between written ends noAt
        rw [parts, run_append, ← flush_run_flush leaves.ends] at h
        obtain ⟨st, taken⟩ :=
          exists_rests_of_unfailed leaves.rests (unfailed_of_run (unfailed_of_flush h))
        have rests := leaves.rests
        rw [taken] at rests
        obtain ⟨tokens, splits⟩ := shorter small rests.1 h
        exact ⟨token :: tokens, parts ▸ .token written ends splits⟩

end State

/-! ## The whole text -/

variable {τ : Type} [Interns τ]

/-- What becomes of the stack when a text is read as a whole. -/
theorem rests_scan (goal : Goal) (symbols : τ) {text : List Char} {tokens : List Token}
    (splits : Splits text tokens) :
    (scan goal text symbols).Rests
      (((Stack.initial goal symbols).takeAll tokens).filter Stack.isComplete) := by
  rw [scan, State.finish_eq]
  exact State.rests_settle (State.rests_of_splits splits rfl)

theorem read_of_rests {goal : Goal} {source : String} {symbols : τ} {st : Stack τ}
    (h : (scan goal source.toList symbols).Rests (some st)) :
    read goal source symbols = (.ok st.forms.reverse, st.symbols) := by
  obtain ⟨between, rfl⟩ := h
  simp only [read, State.result, between]
  rfl

theorem unfailed_of_read {goal : Goal} {source : String} {symbols known : τ}
    {forms : List Datum} (h : read goal source symbols = (.ok forms, known)) :
    (scan goal source.toList symbols).Unfailed := by
  intro fault failed
  simp only [read, State.result, failed] at h
  cases congrArg Prod.fst h

/-- **A text is read as its tokens are taken.** -/
theorem read_eq_ok_iff_takeAll {goal : Goal} {source : String} {symbols known : τ}
    {forms : List Datum} :
    read goal source symbols = (.ok forms, known) ↔
      ∃ tokens st, Splits source.toList tokens ∧
        (Stack.initial goal symbols).takeAll tokens = some st ∧ st.isComplete = true ∧
        st.forms.reverse = forms ∧ st.symbols = known := by
  constructor
  · intro h
    have unfailed := unfailed_of_read h
    have flushed : ((State.initial goal symbols).run source.toList).flush.Unfailed := by
      intro fault failed
      exact unfailed fault (by simp only [scan, State.finish_eq, State.settle, failed])
    obtain ⟨tokens, splits⟩ := State.exists_splits rfl flushed
    have rests := rests_scan goal symbols splits
    obtain ⟨st, taken⟩ := State.exists_rests_of_unfailed rests unfailed
    rw [taken] at rests
    rw [read_of_rests rests, Prod.mk.injEq, Except.ok.injEq] at h
    obtain ⟨found, complete⟩ := Option.filter_eq_some_iff.mp taken
    exact ⟨tokens, st, splits, found, complete, h.1, h.2⟩
  · rintro ⟨tokens, st, splits, taken, complete, rfl, rfl⟩
    have rests := rests_scan goal symbols splits
    rw [taken, Option.filter_some, if_pos complete] at rests
    exact read_of_rests rests

end Reader

end GuardedLisp
