import GuardedLisp.Proofs.Reader.Front
import GuardedLisp.Proofs.Reader.Rest
import GuardedLisp.Proofs.Reader.Table

/-!
# What has been met where the reader stops

The reader stops at its first fault, or at the end of the text.  By then it has met the tokens
before that place, each of them once and from left to right, and has brought the texts of those into
the symbol table that are symbols.  It has met nothing beyond.

So at any time the reader is in the middle of what comes after the tokens that it has met, and the
table holds the texts of just those.

## Main definitions

* `Reader.State.Met`, `Reader.State.Traces`: what the reader has met of a text, and what it is in
  the middle of
* `Reader.stop`: the place where the reader stops

## Main results

* `Reader.State.traces_step`, `Reader.State.traces_finish`: reading traces a text, character by
  character and up to its end
* `Reader.outcome_read`: the stop is the end of a text that can be read, and otherwise the place
  that is reported
* `Reader.exists_liesBefore`: the tokens before the stop are met, and no others
-/

namespace GuardedLisp

namespace Reader

theorem Spelled.append {raw more text text' : List Char} (spelled : Spelled raw text)
    (after : Spelled more text') : Spelled (raw ++ more) (text ++ text') := by
  induction spelled with
  | nil => exact after
  | plain noQuote noEscape _ ih => exact .plain noQuote noEscape ih
  | escape known _ ih => exact .escape known ih

/-! ## What the reader has met -/

/-- What the reader is in the middle of, in a text of a given size: the part of the text from the
end of the last token on, up to what remains to be read. -/
def Mode.Stands (size : Nat) (current remaining : List Char) : Mode → Prop
  | .between => current = remaining
  | .atom start chars =>
    current = chars.reverse ++ remaining ∧ chars ≠ [] ∧
      (∀ c ∈ chars, Atom.isAtomChar c = true) ∧ start + bytes current = size
  | .string chars => ∃ raw, current = '"' :: (raw ++ remaining) ∧ Spelled raw chars.reverse
  | .escape start chars =>
    ∃ raw, current = '"' :: (raw ++ '\\' :: remaining) ∧ Spelled raw chars.reverse ∧
      start + bytes ('\\' :: remaining) = size
  | .comma => current = ',' :: remaining
  | .comment start =>
    ∃ body, current = ';' :: (body ++ remaining) ∧ '\n' ∉ body ∧ '\r' ∉ body ∧
      start + bytes current = size
  | .commentReturn start =>
    ∃ body, current = ';' :: (body ++ '\r' :: remaining) ∧ '\n' ∉ body ∧ '\r' ∉ body ∧
      start + bytes current = size
  | .failed fault =>
    ∃ left rest, current = left ++ rest ∧ Unclosed left ∧ fault.offset + bytes rest = size

namespace State

variable {τ : Type} [Interns τ]

/-- The reader has met the tokens of a text up to `current`, and has brought their texts into a
table. -/
def Met (table : τ) (text : List Char) (s : State τ) (current : List Char) : Prop :=
  ∃ tokens, Begins text tokens current ∧
    s.symbols = Interns.internAll table (tokens.flatMap Token.names)

/-- The reader has met the tokens of a text up to somewhere, and is in the middle of what comes
next. -/
def Traces (table : τ) (text : List Char) (s : State τ) (remaining : List Char) : Prop :=
  ∃ current, s.Met table text current ∧ s.mode.Stands (bytes text) current remaining

variable {table : τ} {text rest : List Char} {s : State τ}

/-- One more token has been met. -/
theorem Met.token {s' : State τ} {lexeme : List Char} {token : Token}
    (met : s.Met table text (lexeme ++ rest)) (written : Lexeme lexeme token)
    (ends : token.EndsBefore rest) (noAt : lexeme = [','] → rest.head? ≠ some '@')
    (same : s'.symbols = Interns.internAll s.symbols token.names) : s'.Met table text rest := by
  obtain ⟨tokens, begins, symbols⟩ := met
  refine ⟨tokens ++ [token], begins.trans (.token written ends noAt (.nil rest)), ?_⟩
  rw [same, symbols, List.flatMap_append, Interns.internAll_append, List.flatMap_singleton]

theorem Met.blank {c : Char} (met : s.Met table text (c :: rest)) (blank : isBlank c = true) :
    s.Met table text rest := by
  obtain ⟨tokens, begins, symbols⟩ := met
  exact ⟨tokens, by simpa using begins.trans (.blank blank (.nil rest)), symbols⟩

theorem Met.comment {body : List Char} (met : s.Met table text (';' :: (body ++ rest)))
    (noFeed : '\n' ∉ body) (noReturn : '\r' ∉ body) (ends : EndsLine rest) :
    s.Met table text rest := by
  obtain ⟨tokens, begins, symbols⟩ := met
  exact ⟨tokens, by simpa using begins.trans (.comment noFeed noReturn ends (.nil rest)), symbols⟩

/-! ## Pieces of the reader -/

/-- A fault where the last token ends. -/
theorem traces_fail {current remaining : List Char} (met : s.Met table text current)
    {place : Nat} (stands : place + bytes current = bytes text) (cause : Cause) :
    (s.fail cause place).Traces table text remaining :=
  ⟨current, met, [], current, rfl, .nothing, stands⟩

theorem traces_starting {next : State τ} {current : List Char} (met : s.Met table text current)
    {place : Nat} (stands : place + bytes current = bytes text)
    (traces : next.Traces table text rest) : (s.starting place next).Traces table text rest := by
  obtain started | ⟨cause, failed⟩ := starting_cases s next place
  · rwa [started]
  · rw [failed]
    exact traces_fail met stands cause

theorem traces_refuse {current remaining : List Char} (met : s.Met table text current)
    {place : Nat} (stands : place + bytes current = bytes text) :
    (s.refuse place).Traces table text remaining :=
  traces_starting met stands (traces_fail met stands .misplaced)

/-- A mark that ends at a place is met, though its operand may lie too deep. -/
theorem traces_mark {lexeme : List Char} {keyword : Symbol}
    (met : s.Met table text (lexeme ++ rest)) (written : Lexeme lexeme (.mark keyword))
    (noAt : lexeme = [','] → rest.head? ≠ some '@') {place : Nat}
    (stands : place + bytes rest = bytes text) :
    (s.mark keyword place).Traces table text rest := by
  simp only [mark]
  split
  · exact traces_fail (met.token written trivial noAt rfl) stands .tooDeep
  · exact ⟨rest, met.token written trivial noAt rfl, rfl⟩

theorem traces_close (met : s.Met table text (')' :: rest)) {place : Nat}
    (stands : place + bytes (')' :: rest) = bytes text) :
    (s.close place).Traces table text rest := by
  have closed (s' : State τ) (same : s'.symbols = s.symbols) : s'.Met table text rest :=
    Met.token met .closing trivial (by simp) same
  unfold close
  split
  · exact ⟨rest, closed _ rfl, rfl⟩
  · exact ⟨rest, closed _ rfl, rfl⟩
  · exact traces_refuse met stands

theorem traces_dot (between : s.mode = .between) (met : s.Met table text ('.' :: rest))
    {place : Nat} (stands : place + bytes ('.' :: rest) = bytes text) :
    (s.dot place).Traces table text rest := by
  unfold dot
  split
  · refine ⟨rest, Met.token met .dot trivial (by simp) rfl, ?_⟩
    simp only [between, Mode.Stands]
  · exact traces_refuse met stands

/-- The character that comes after the last token. -/
theorem traces_between (between : s.mode = .between) {c : Char}
    (met : s.Met table text (c :: rest)) {place : Nat}
    (stands : place + bytes (c :: rest) = bytes text) :
    (s.between place c).Traces table text rest := by
  rw [between_eq]
  split_ifs with blank comment closing dot
  · exact ⟨rest, met.blank blank, by simp only [between, Mode.Stands]⟩
  · subst comment
    exact ⟨_, met, [], rfl, List.not_mem_nil, List.not_mem_nil, stands⟩
  · subst closing
    exact traces_close met stands
  · subst dot
    exact traces_dot between met stands
  · refine traces_starting met stands ?_
    unfold opened
    split_ifs with opening string quote quasiquote comma atom
    · subst opening
      refine ⟨rest, Met.token met .opening trivial (by simp) rfl, ?_⟩
      simp only [between, Mode.Stands]
    · subst string
      exact ⟨_, met, [], rfl, .nil⟩
    · subst quote
      refine traces_mark met .quote (by simp) ?_
      rw [← stands, bytes_cons, ← Nat.add_assoc]
      rfl
    · subst quasiquote
      refine traces_mark met .quasiquote (by simp) ?_
      rw [← stands, bytes_cons, ← Nat.add_assoc]
      rfl
    · subst comma
      exact ⟨_, met, rfl⟩
    · exact ⟨_, met, rfl, List.cons_ne_nil _ _, by simpa using atom, stands⟩
    · exact traces_fail met stands .misplaced

/-- The character that completes a token is read after it. -/
theorem traces_resume {c : Char} {r : Option (Stack τ)} (rests : s.Rests r)
    (traces : s.Traces table text (c :: rest))
    (stands : s.offset + bytes (c :: rest) = bytes text) :
    (s.resume c).Traces table text rest := by
  obtain ⟨current, met, mode⟩ := traces
  unfold resume
  cases r with
  | some st =>
    rw [rests.1] at mode ⊢
    obtain rfl : current = c :: rest := mode
    exact traces_between rests.1 met stands
  | none =>
    obtain ⟨fault, failed⟩ := rests
    rw [failed] at mode
    simp only [failed]
    exact ⟨current, met, by rwa [failed]⟩

/-- An atom is met unless it is an integer without a 64-bit form. -/
theorem traces_endAtom {start : Nat} {chars : List Char}
    (met : s.Met table text (chars.reverse ++ rest)) (some : chars ≠ [])
    (all : ∀ c ∈ chars, Atom.isAtomChar c = true)
    (stands : start + bytes (chars.reverse ++ rest) = bytes text)
    (ends : ∀ c ∈ rest.head?, Atom.isAtomChar c = false) :
    (s.endAtom start chars).Traces table text rest := by
  have written : Lexeme chars.reverse (.atom chars.reverse) :=
    .atom (by simpa using some) (by simpa using all)
  have noAt : chars.reverse = [','] → rest.head? ≠ Option.some '@' := by
    intro comma
    have isAtom := all ',' (List.mem_reverse.mp (comma ▸ List.mem_singleton_self _))
    exact absurd isAtom (by decide)
  unfold endAtom
  cases integer : Atom.integer? chars.reverse with
  | none =>
    refine ⟨rest, met.token written ends noAt ?_, rfl⟩
    simp [Token.names, integer, supply, Interns.internAll]
  | some n =>
    cases word : word? n with
    | none =>
      simp only [word]
      exact traces_fail met stands .integerRange
    | some value =>
      simp only [word]
      refine ⟨rest, met.token written ends noAt ?_, rfl⟩
      simp [Token.names, integer, supply, Interns.internAll]

/-! ## Reading

What the reader is in the middle of is longer by a character, or ends there and has been met. -/

/-- A character in a string. -/
theorem traces_string {c : Char} {chars raw : List Char} (known : s.mode = .string chars)
    (met : s.Met table text ('"' :: (raw ++ c :: rest))) (spelled : Spelled raw chars.reverse)
    (stands : s.offset + bytes (c :: rest) = bytes text) :
    (s.consume c).Traces table text rest := by
  simp only [consume, known]
  split_ifs with quote escape
  · subst quote
    have met : s.Met table text ('"' :: (raw ++ ['"']) ++ rest) := by simpa using met
    exact ⟨rest, met.token (.string spelled) trivial (by simp) rfl, rfl⟩
  · subst escape
    exact ⟨_, met, raw, rfl, spelled, stands⟩
  · refine ⟨_, met, raw ++ [c], by simp, ?_⟩
    rw [List.reverse_cons]
    exact spelled.append (.plain quote escape .nil)

/-- The character after a backslash. -/
theorem traces_escape {c : Char} {start : Nat} {chars raw : List Char}
    (known : s.mode = .escape start chars)
    (met : s.Met table text ('"' :: (raw ++ '\\' :: c :: rest)))
    (spelled : Spelled raw chars.reverse)
    (begins : start + bytes ('\\' :: c :: rest) = bytes text) :
    (s.consume c).Traces table text rest := by
  simp only [consume, known]
  split
  · next d escaped =>
    refine ⟨_, met, raw ++ ['\\', c], by simp, ?_⟩
    rw [List.reverse_cons]
    exact spelled.append (.escape (unescape?_eq_some_iff.mp escaped) .nil)
  · exact ⟨_, met, '"' :: raw, '\\' :: c :: rest, rfl, .string spelled, begins⟩

/-- The character after a comma. -/
theorem traces_comma {c : Char} (known : s.mode = .comma)
    (met : s.Met table text (',' :: c :: rest))
    (stands : s.offset + bytes (c :: rest) = bytes text) :
    (s.consume c).Traces table text rest := by
  simp only [consume, known]
  split_ifs with splicing
  · subst splicing
    have met : s.Met table text ([',', '@'] ++ rest) := met
    refine traces_mark met .unquoteSplicing (by simp) ?_
    rw [← stands, bytes_cons, ← Nat.add_assoc]
    rfl
  · have met : s.Met table text ([','] ++ c :: rest) := met
    have noAt : [','] = [','] → (c :: rest).head? ≠ some '@' := by simpa using splicing
    refine traces_resume (rests_mark ..) (traces_mark met .unquote noAt stands) ?_
    rwa [offset_mark]

/-- A character in a comment. -/
theorem traces_comment {c : Char} {start : Nat} {body : List Char}
    (known : s.mode = .comment start) (met : s.Met table text (';' :: (body ++ c :: rest)))
    (noFeed : '\n' ∉ body) (noReturn : '\r' ∉ body)
    (begins : start + bytes (';' :: (body ++ c :: rest)) = bytes text) :
    (s.consume c).Traces table text rest := by
  simp only [consume, known]
  split_ifs with feed ret
  · subst feed
    refine ⟨rest, (Met.comment met noFeed noReturn ?_).blank rfl, rfl⟩
    exact .inr (.inl ⟨rest, rfl⟩)
  · subst ret
    exact ⟨_, met, body, rfl, noFeed, noReturn, begins⟩
  · refine ⟨_, met, ?_⟩
    rw [known]
    refine ⟨body ++ [c], by simp, ?_, ?_, begins⟩
    · simpa [Ne.symm feed] using noFeed
    · simpa [Ne.symm ret] using noReturn

/-- **One more character has been read.** -/
theorem traces_step {c : Char} (traces : s.Traces table text (c :: rest))
    (stands : s.offset + bytes (c :: rest) = bytes text) : (s.step c).Traces table text rest := by
  have step : (s.step c).Traces table text rest ↔ (s.consume c).Traces table text rest := Iff.rfl
  obtain ⟨current, met, mode⟩ := traces
  rw [step]
  cases known : s.mode with
  | between =>
    rw [known] at mode
    simp only [consume, known]
    obtain rfl : current = c :: rest := mode
    exact traces_between known met stands
  | atom start chars =>
    rw [known] at mode
    obtain ⟨rfl, some, all, begins⟩ := mode
    simp only [consume, known]
    split
    · next isAtom =>
      refine ⟨_, met, ?_, List.cons_ne_nil _ _, List.forall_mem_cons.mpr ⟨isAtom, all⟩, begins⟩
      simp
    · next other =>
      refine traces_resume (rests_endAtom s start chars)
        (traces_endAtom met some all begins (by simpa using other)) ?_
      rwa [offset_endAtom]
  | string chars =>
    rw [known] at mode
    obtain ⟨raw, rfl, spelled⟩ := mode
    exact traces_string known met spelled stands
  | escape start chars =>
    rw [known] at mode
    obtain ⟨raw, rfl, spelled, begins⟩ := mode
    exact traces_escape known met spelled begins
  | comma =>
    rw [known] at mode
    obtain rfl : current = ',' :: c :: rest := mode
    exact traces_comma known met stands
  | comment start =>
    rw [known] at mode
    obtain ⟨body, rfl, noFeed, noReturn, begins⟩ := mode
    exact traces_comment known met noFeed noReturn begins
  | commentReturn start =>
    rw [known] at mode
    obtain ⟨body, rfl, noFeed, noReturn, begins⟩ := mode
    simp only [consume, known]
    split
    · next feed =>
      subst feed
      refine ⟨rest, ((Met.comment met noFeed noReturn ?_).blank rfl).blank rfl, rfl⟩
      exact .inr (.inr ⟨rest, rfl⟩)
    · exact traces_refuse met begins
  | failed fault =>
    simp only [consume, known]
    rw [known] at mode
    exact ⟨current, met, by rwa [known]⟩

/-- Reading traces a text from any place on. -/
theorem traces_run {front : List Char} (traces : s.Traces table text (front ++ rest))
    (stands : s.offset + bytes (front ++ rest) = bytes text) :
    (s.run front).Traces table text rest := by
  -- The reader knows its place at every character, so faults are placed right.
  induction front generalizing s with
  | nil => exact traces
  | cons c front ih =>
    refine ih (traces_step traces stands) ?_
    rw [← stands, List.cons_append, bytes_cons, ← Nat.add_assoc]
    rfl

theorem traces_initial (goal : Goal) (table : τ) (front rest : List Char) :
    ((initial goal table).run front).Traces table (front ++ rest) rest :=
  traces_run ⟨front ++ rest, ⟨[], .nil _, rfl⟩, rfl⟩ (Nat.zero_add _)

/-! ## The end of a token -/

/-- A token that may end before the rest has been met there. -/
theorem traces_flush_of_endsBefore (traces : s.Traces table text rest)
    (stands : s.offset + bytes rest = bytes text) (ends : s.mode.EndsBefore rest) :
    s.flush.Traces table text rest := by
  obtain ⟨current, met, mode⟩ := traces
  unfold flush
  cases known : s.mode with
  | between | failed fault =>
    rw [known] at mode
    exact ⟨current, met, by simpa only [known] using mode⟩
  | atom start chars =>
    rw [known] at mode ends
    obtain ⟨rfl, some, all, begins⟩ := mode
    exact traces_endAtom met some all begins ends
  | comma =>
    rw [known] at mode ends
    obtain rfl : current = ',' :: rest := mode
    have met : s.Met table text ([','] ++ rest) := met
    exact traces_mark met .unquote (fun _ => ends) stands
  | comment start =>
    rw [known] at mode ends
    obtain ⟨body, rfl, noFeed, noReturn, -⟩ := mode
    exact ⟨rest, met.comment noFeed noReturn ends, rfl⟩
  | string chars | escape start chars | commentReturn start =>
    rw [known] at ends
    exact ends.elim

/-- The token at the end of the text is met with it. -/
theorem traces_flush (traces : s.Traces table text []) (stands : s.offset = bytes text) :
    s.flush.Traces table text [] := by
  have ended (ends : s.mode.EndsBefore []) := traces_flush_of_endsBefore traces stands ends
  obtain ⟨current, met, mode⟩ := traces
  cases known : s.mode with
  | between | failed fault =>
    rw [known] at ended
    exact ended trivial
  | atom start chars =>
    rw [known] at ended
    exact ended nofun
  | comma =>
    rw [known] at ended
    exact ended nofun
  | comment start =>
    rw [known] at ended
    exact ended (.inl rfl)
  | string chars =>
    rw [known] at mode
    obtain ⟨raw, rfl, spelled⟩ := mode
    simp only [flush, known]
    exact ⟨_, met, '"' :: raw, [], by simp, .string spelled, stands⟩
  | escape start chars =>
    rw [known] at mode
    obtain ⟨raw, rfl, spelled, -⟩ := mode
    simp only [flush, known]
    exact ⟨_, met, '"' :: (raw ++ ['\\']), [], by simp, .escape spelled, stands⟩
  | commentReturn start =>
    rw [known] at mode
    obtain ⟨body, rfl, -, -, begins⟩ := mode
    simp only [flush, known]
    exact traces_refuse met begins

theorem traces_settle {r : Option (Stack τ)} (rests : s.Rests r) (traces : s.Traces table text [])
    (stands : s.offset = bytes text) : s.settle.Traces table text [] := by
  obtain ⟨current, met, mode⟩ := traces
  unfold settle
  cases r with
  | some st =>
    rw [rests.1] at mode ⊢
    obtain rfl : current = [] := mode
    dsimp only
    split
    · exact ⟨[], met, rfl⟩
    · exact traces_fail met stands .endOfText
  | none =>
    obtain ⟨fault, failed⟩ := rests
    rw [failed] at mode
    simp only [failed]
    exact ⟨current, met, by rwa [failed]⟩

/-- At the end of the text the reader is at rest. -/
theorem exists_rests_scan (goal : Goal) (table : τ) (text : List Char) :
    ∃ r, (scan goal text table).Rests r := by
  obtain ⟨r, rests⟩ := ((initial goal table).run text).exists_rests_flush
  exact ⟨_, by rw [scan, finish_eq]; exact rests_settle rests⟩

/-- Reading traces a text to its end. -/
theorem traces_finish (goal : Goal) (table : τ) (text : List Char) :
    (scan goal text table).Traces table text [] := by
  have stands : ((initial goal table).run text).offset = bytes text := by
    rw [offset_run, initial, Nat.zero_add, bytes]
  have begun := traces_initial goal table text []
  rw [List.append_nil] at begun
  have traces := traces_flush begun stands
  obtain ⟨r, rests⟩ := ((initial goal table).run text).exists_rests_flush
  rw [scan, finish_eq]
  exact traces_settle rests traces ((offset_flush _).trans stands)

end State

/-- The place where the reader stops, in bytes: its first fault, or the end of the text. -/
def stop (goal : Goal) (source : String) : Nat :=
  match (scan goal source.toList (Log.mk [])).mode with
  | .failed fault => fault.offset
  | _ => source.utf8ByteSize

variable {ι : Type} [Interner ι]

theorem stop_of_failed {goal : Goal} {source : String} {table : SymbolTable ι} {fault : Fault}
    (failed : (scan goal source.toList table).mode = .failed fault) :
    stop goal source = fault.offset := by
  rw [mode_scan] at failed
  simp only [stop, failed]

theorem stop_of_unfailed {goal : Goal} {source : String} {table : SymbolTable ι}
    (unfailed : (scan goal source.toList table).Unfailed) :
    stop goal source = source.utf8ByteSize := by
  unfold State.Unfailed at unfailed
  rw [mode_scan] at unfailed
  unfold stop
  split
  · next fault failed => exact absurd failed (unfailed fault)
  · rfl

/-- A text that can be read is read to its end, and a report is about the place of the stop. -/
theorem outcome_read (goal : Goal) (source : String) (table : SymbolTable ι) :
    (∃ forms, (read goal source table).1 = .ok forms ∧ stop goal source = source.utf8ByteSize) ∨
      ∃ cause, (read goal source table).1 =
        .error (Fault.report ⟨cause, stop goal source⟩ source.toList) := by
  simp only [read, State.result]
  split
  · next fault failed => exact .inr ⟨fault.cause, by rw [stop_of_failed failed]; rfl⟩
  · next unfailed => exact .inl ⟨_, rfl, stop_of_unfailed unfailed⟩

/-- **The tokens that lie before the stop are met, and no others**: their texts, as far as they are
symbols, are brought into the table one after another. -/
theorem exists_liesBefore (goal : Goal) (source : String) (table : SymbolTable ι) :
    ∃ tokens, LiesBefore source.toList (stop goal source) tokens ∧
      (read goal source table).2 = table.insertAll (tokens.flatMap Token.names) := by
  obtain ⟨current, ⟨tokens, begins, symbols⟩, mode⟩ :=
    State.traces_finish goal table source.toList
  refine ⟨tokens, ?_, symbols⟩
  obtain ⟨r, rests⟩ := State.exists_rests_scan goal table source.toList
  cases r with
  | some st =>
    rw [rests.1] at mode
    obtain rfl : current = [] := mode
    refine ⟨[], [], begins, .nothing, ?_⟩
    rw [stop_of_unfailed (State.unfailed_of_rests rests), bytes_nil, bytes, String.ofList_toList,
      Nat.add_zero]
  | none =>
    obtain ⟨fault, failed⟩ := rests
    rw [failed] at mode
    -- What the reader stands in at a fault is what lies between the last token and the stop.
    obtain ⟨left, rest, rfl, unclosed, stands⟩ := mode
    exact ⟨left, rest, begins, unclosed, by rwa [stop_of_failed failed]⟩

end Reader

end GuardedLisp
