import GuardedLisp.Proofs.Reader.Extension
import GuardedLisp.Proofs.Reader.Lines

/-!
# What is kept and what is released

Lines may come in any number and with any faults, and what is kept may be thrown away between two
of them.  A text that is complete is never kept, whatever came before it.  A text that is released
has no open list and no open string, unless the reader meets a fault in it; so if it ends too early,
then that is because a mark outside all brackets waits for its operand.

## Main definitions

* `Reader.State.Tallies`: what someone who counts brackets knows of a state, also at a carriage
  return in a comment
* `Reader.EndsInMark`: the last token of a text is a mark outside all brackets
* `LineGatherer.Gathers`: the gatherers that lines and resets lead to, with the lines that are kept
* `LineGatherer.Holds`: what is known of a gatherer and the lines that it keeps

## Main results

* `Reader.endsInMark_of_early`: a text that ends too early outside lists and strings ends in a mark
* `LineGatherer.Gathers.holds`: a gatherer keeps the lines since the last release, drop or reset
* `LineGatherer.Gathers.released_whole`: no program is withheld, and no list or string is cut off
-/

namespace GuardedLisp

namespace Reader

namespace State

/-! ## Brackets in any line -/

/-- What a counter of brackets knows.  It takes a carriage return for a part of the comment that the
return stands in. -/
inductive Tallies (s : State) : LineMode → Int → Prop
  | shown {mode : LineMode} {depth : Int} : s.Shows mode depth → s.Tallies mode depth
  | returned {start : Nat} : s.mode = .commentReturn start → s.Tallies .comment s.lists

theorem Tallies.lists_eq {s : State} {mode : LineMode} {depth : Int} (h : s.Tallies mode depth) :
    (s.lists : Int) = depth := by
  cases h with
  | shown shows => exact shows.depth
  | returned _ => rfl

/-- Inside a line, whoever counts brackets goes along with the reader. -/
theorem Tallies.step {s : State} {mode : LineMode} {depth : Int} (h : s.Tallies mode depth)
    {c : Char} (noFeed : c ≠ '\n') (unfailed : (s.step c).Unfailed) :
    (s.step c).Tallies (mode.next c) (depth + mode.weight c) := by
  cases h with
  | returned ret =>
    -- Inside a line no line feed follows the carriage return.
    replace unfailed : (s.consume c).Unfailed := unfailed
    simp only [consume, ret, if_neg noFeed] at unfailed
    exact absurd unfailed not_unfailed_refuse
  | shown shows =>
    by_cases ret : mode = .comment → c ≠ '\r'
    · exact .shown (shows_step shows noFeed ret unfailed)
    · obtain ⟨rfl, rfl⟩ : mode = .comment ∧ c = '\r' := by simpa using ret
      obtain ⟨seen, rfl⟩ := shows
      cases current : s.mode with
      | comment start =>
        have same : (s.step '\r').mode = .commentReturn start := by
          simp only [State.step, consume, current, if_neg noFeed, if_true]
        have lists : (s.step '\r').lists = s.lists := by
          simp only [State.step, consume, current, if_neg noFeed, if_true]
          rfl
        have tallies := Tallies.returned same
        rw [lists] at tallies
        exact (Int.add_zero _).symm ▸ tallies
      | _ => simp [current, Mode.line?] at seen

/-- So the scan of a line goes along with the reader. -/
theorem Tallies.run {s : State} {mode : LineMode} {depth : Int} (h : s.Tallies mode depth)
    {line : List Char} (noFeed : '\n' ∉ line) (unfailed : (s.run line).Unfailed) :
    (s.run line).Tallies (mode.scan line).1 (depth + (mode.scan line).2) := by
  induction line generalizing s mode depth with
  | nil => exact (Int.add_zero depth).symm ▸ h
  | cons c line ih =>
    obtain ⟨isFeed, noFeed⟩ := List.ne_and_not_mem_of_not_mem_cons noFeed
    rw [LineMode.scan_cons, ← Int.add_assoc]
    exact ih (h.step isFeed.symm (unfailed_of_run unfailed)) noFeed unfailed

/-- At the start of the next line the reader is in no comment. -/
theorem Tallies.lineFeed {s : State} {mode : LineMode} {depth : Int} (h : s.Tallies mode depth)
    (unfailed : (s.step '\n').Unfailed) :
    (s.step '\n').Shows (if mode.isOpen then .string else .code) depth := by
  cases h with
  | shown shows => exact shows_lineFeed shows unfailed
  | returned ret =>
    rw [shows_step_iff]
    simp only [consume, ret, if_true]
    exact ⟨rfl, rfl⟩

/-- At the end of a text without faults the brackets balance. -/
theorem Tallies.closed {s : State} {mode : LineMode} {depth : Int} (h : s.Tallies mode depth)
    (all : s.goal = .all) (unfailed : s.finish.Unfailed) : depth = 0 ∧ mode.isOpen = false := by
  cases h with
  | shown shows =>
    obtain ⟨none, closed, -⟩ := closed_of_finish all shows unfailed
    exact ⟨none, closed⟩
  | returned ret =>
    simp only [finish, ret] at unfailed
    exact absurd unfailed not_unfailed_refuse

/-- Where the counter knows of no open string, the reader is in none. -/
theorem Tallies.not_string {s : State} {mode : LineMode} {depth : Int} (h : s.Tallies mode depth)
    (closed : mode.isOpen = false) :
    (∀ chars, s.mode ≠ .string chars) ∧ ∀ start chars, s.mode ≠ .escape start chars := by
  have other {current : Mode} {line : LineMode} (same : current.line? = some line)
      (isOpen : line.isOpen = true) : s.mode ≠ current := by
    rintro rfl
    cases h with
    | shown shows =>
      obtain rfl : line = mode := line_eq shows.mode rfl same
      exact Bool.false_ne_true (closed.symm.trans isOpen)
    | returned ret => simp [ret, Mode.line?] at same
  exact ⟨fun chars => other rfl rfl, fun start chars => other rfl rfl⟩

end State

/-! ## Texts that end in a mark -/

/-- A text is reported as incomplete only if it ends too early. -/
theorem Cause.eq_endOfText {cause : Cause} (h : cause.kind = .incomplete) : cause = .endOfText := by
  cases cause with
  | endOfText => rfl
  | tooDeep | integerRange | unknownEscape | misplaced | trailing => cases h

/-- The last token of a text is a mark outside all brackets, with nothing but whole expressions and
further marks before it. -/
def EndsInMark (text : List Char) : Prop :=
  ∃ (known : SymbolTable) (done : List Token) (data : List Datum) (keywords : List Symbol)
    (keyword : Symbol),
    Splits text (done ++ (keywords ++ [keyword]).map Token.mark) ∧ Expressions known 0 done data

/-- If nothing but marks is open, then they are all that has been read of what is open. -/
theorem Opens.exists_marks {known : SymbolTable} {pending : List Open} {before : List Token}
    (h : Opens known pending before) (none : pending.countP Open.isList = 0) :
    ∃ keywords : List Symbol, before = keywords.map Token.mark ∧
      keywords.length = pending.length := by
  induction h with
  | nil => exact ⟨[], rfl, rfl⟩
  | @marked keyword outer before _ _ _ ih =>
    rw [List.countP_cons_of_neg (by simp [Open.isList])] at none
    obtain ⟨keywords, rfl, size⟩ := ih none
    exact ⟨keywords ++ [keyword], by simp, by simp [size]⟩
  | list | dotted | closing => simp [Open.isList] at none

/-- The end of a token opens no list and closes none. -/
theorem State.lists_flush {s : State} (h : s.flush.Unfailed) : s.flush.lists = s.lists := by
  cases current : s.mode with
  | atom start chars =>
    simp only [flush, current] at h ⊢
    exact (endAtom_shows h).2
  | comma =>
    simp only [flush, current] at h ⊢
    exact Int.ofNat.inj (shows_mark h).depth
  | commentReturn start =>
    simp only [flush, current] at h
    exact absurd h not_unfailed_refuse
  | between | comment start | string chars | escape start chars | failed fault =>
    simp only [flush, current, lists, fail]

/-- A text that ends too early outside all lists and strings ends in a mark. -/
theorem endsInMark_of_early {text : List Char} {symbols : SymbolTable} {fault : Fault}
    {mode : LineMode} {depth : Int} (failed : (scan .all text symbols).mode = .failed fault)
    (early : fault.cause = .endOfText)
    (tallies : ((State.initial .all symbols).run text).Tallies mode depth)
    (closed : ¬ (0 < depth ∨ mode.isOpen = true)) : EndsInMark text := by
  rw [scan] at failed
  obtain ⟨noList, noString⟩ : depth ≤ 0 ∧ mode.isOpen = false := by simpa using closed
  have outside : ((State.initial .all symbols).run text).lists = 0 := by
    have counted := tallies.lists_eq
    omega
  obtain ⟨noString, noEscape⟩ := tallies.not_string noString
  have unfailed :=
    State.unfailed_flush (State.fits_initial symbols text) failed early noString noEscape
  obtain ⟨tokens, st, splits, taken, derived, -, rfl⟩ := State.exists_derived unfailed
  obtain ⟨done, before, rfl, forms, opens⟩ := derived.read
  obtain ⟨keywords, rfl, size⟩ :=
    opens.exists_marks ((State.lists_flush unfailed).trans outside)
  have marks : keywords ≠ [] := by
    rintro rfl
    have complete := List.length_eq_zero_iff.mp size.symm
    rw [State.finish_eq,
      State.settle_of_closed (Stack.goal_symbols_takeAll taken).1 unfailed complete] at failed
    cases failed
  obtain ⟨first, last, rfl⟩ := (List.eq_nil_or_concat keywords).resolve_left marks
  exact ⟨_, done, _, first, last, by simpa using splits, forms⟩

end Reader

/-! ## What is kept -/

theorem intercalate_concat {α : Type} (separator : List α) {lists : List (List α)}
    (nonempty : lists ≠ []) (last : List α) :
    separator.intercalate (lists ++ [last]) = separator.intercalate lists ++ separator ++ last := by
  induction lists with
  | nil => exact absurd rfl nonempty
  | cons first lists ih =>
    by_cases single : lists = []
    · subst single
      simp
    · rw [List.cons_append, List.intercalate_cons_of_ne_nil (by simp),
        List.intercalate_cons_of_ne_nil single, ih single]
      simp only [List.append_assoc]

namespace LineGatherer

open Reader

/-- The gatherers that lines and resets lead to, each with the lines that it has taken since the
last release, drop or reset. -/
inductive Gathers : LineGatherer → List (List Char) → Prop
  | start : Gathers {} []
  | reset {g : LineGatherer} {kept : List (List Char)} : Gathers g kept → Gathers {} []
  | released {g next : LineGatherer} {kept : List (List Char)} {line text : List Char} :
      Gathers g kept → '\n' ∉ line → g.push line = (some text, next) → Gathers next []
  | dropped {g next : LineGatherer} {kept : List (List Char)} {line : List Char} :
      Gathers g kept → '\n' ∉ line → g.push line = (none, next) → next.isPending = false →
      Gathers next []
  | kept {g next : LineGatherer} {kept : List (List Char)} {line : List Char} :
      Gathers g kept → '\n' ∉ line → g.push line = (none, next) → next.isPending = true →
      Gathers next (kept ++ [line])

/-- What is known of a gatherer and the lines that it keeps. -/
structure Holds (g : LineGatherer) (kept : List (List Char)) : Prop where
  /-- The next line goes on with the text of those that are kept. -/
  text (line : List Char) : g.lead ++ line = ['\n'].intercalate (kept ++ [line])
  /-- A gatherer that keeps nothing is as at the start. -/
  fresh : g.lead = [] → g = {}
  /-- The reader sees what is kept as the gatherer does. -/
  follows (symbols : SymbolTable) : (g.reading symbols).Unfailed → g.Follows symbols

theorem holds_initial : Holds {} [] where
  text _ := by simp [lead]
  fresh _ := rfl
  follows _ _ := ⟨rfl, rfl⟩

/-- While a text is read without faults, the reader goes along with the gatherer. -/
theorem Holds.tallies {g : LineGatherer} {kept : List (List Char)} (h : g.Holds kept)
    {line : List Char} (noFeed : '\n' ∉ line) {mode : LineMode} {balance : Int}
    (scan : (if g.inString then LineMode.string else .code).scan line = (mode, balance))
    {symbols : SymbolTable} (unfailed : ((g.reading symbols).run line).Unfailed) :
    ((g.reading symbols).run line).Tallies mode (g.depth + balance) := by
  have tallies := State.Tallies.shown (h.follows symbols (State.unfailed_of_run unfailed))
  have ran := tallies.run noFeed unfailed
  rwa [scan] at ran

/-- **A line that leaves something open is kept**, and the reader goes on with the next one. -/
theorem Holds.keep {g : LineGatherer} {kept : List (List Char)} (h : g.Holds kept)
    {line : List Char} (noFeed : '\n' ∉ line) {mode : LineMode} {balance : Int}
    (scan : (if g.inString then LineMode.string else .code).scan line = (mode, balance))
    (isOpen : 0 < g.depth + balance ∨ mode.isOpen = true) :
    isPending ⟨g.lead ++ line, g.depth + balance, mode.isOpen⟩ = true ∧
      Holds ⟨g.lead ++ line, g.depth + balance, mode.isOpen⟩ (kept ++ [line]) := by
  have nonempty : g.lead ++ line ≠ [] := by
    intro empty
    obtain ⟨lead, rfl⟩ := List.append_eq_nil_iff.mp empty
    obtain rfl := h.fresh lead
    obtain ⟨rfl, rfl⟩ := Prod.mk.inj scan
    exact absurd isOpen (by decide)
  have lead : lead ⟨g.lead ++ line, g.depth + balance, mode.isOpen⟩ = g.lead ++ line ++ ['\n'] :=
    if_neg (mt List.isEmpty_iff.mp nonempty)
  refine ⟨by simpa [isPending] using nonempty, ?_, ?_, ?_⟩
  · intro next
    rw [intercalate_concat _ (by simp), ← h.text, lead]
  · rw [lead]
    exact fun empty => absurd empty (by simp)
  · intro symbols unfailed
    rw [Follows]
    rw [reading_of_kept nonempty] at unfailed ⊢
    exact (h.tallies noFeed scan (State.unfailed_of_step unfailed)).lineFeed unfailed

/-- A line is kept with those before it, or nothing is kept any more. -/
theorem Holds.push_cases {g : LineGatherer} {kept : List (List Char)} (h : g.Holds kept)
    {line : List Char} (noFeed : '\n' ∉ line) :
    (∃ next, g.push line = (none, next) ∧ next.isPending = true ∧ next.Holds (kept ++ [line])) ∨
      ∃ text?, g.push line = (text?, {}) := by
  generalize scan : (if g.inString then LineMode.string else .code).scan line = scanned
  obtain ⟨mode, balance⟩ := scanned
  by_cases isOpen : 0 < g.depth + balance ∨ mode.isOpen = true
  · exact .inl ⟨_, push_of_open scan isOpen, h.keep noFeed scan isOpen⟩
  · exact .inr ⟨_, push_of_closed scan isOpen⟩

/-- **A gatherer keeps the lines since the last release, drop or reset.** -/
theorem Gathers.holds {g : LineGatherer} {kept : List (List Char)} (h : g.Gathers kept) :
    g.Holds kept := by
  induction h with
  | start | reset => exact holds_initial
  | released _ noFeed pushed ih =>
    obtain ⟨_, same, -⟩ | ⟨_, same⟩ := ih.push_cases noFeed
    · cases pushed.symm.trans same
    · obtain ⟨-, rfl⟩ := Prod.mk.inj (pushed.symm.trans same)
      exact holds_initial
  | dropped _ noFeed pushed empty ih =>
    obtain ⟨_, same, pending, -⟩ | ⟨_, same⟩ := ih.push_cases noFeed
    · obtain ⟨-, rfl⟩ := Prod.mk.inj (pushed.symm.trans same)
      exact absurd (empty.symm.trans pending) Bool.false_ne_true
    · obtain ⟨-, rfl⟩ := Prod.mk.inj (pushed.symm.trans same)
      exact holds_initial
  | kept _ noFeed pushed pending ih =>
    obtain ⟨_, same, -, holds⟩ | ⟨_, same⟩ := ih.push_cases noFeed
    · obtain ⟨-, rfl⟩ := Prod.mk.inj (pushed.symm.trans same)
      exact holds
    · obtain ⟨-, rfl⟩ := Prod.mk.inj (pushed.symm.trans same)
      cases pending

/-! ## What is released -/

/-- A text is released where nothing is open in it, and nothing of it is kept. -/
theorem closed_of_push {g : LineGatherer} {line text : List Char} {mode : LineMode} {balance : Int}
    (scan : (if g.inString then LineMode.string else .code).scan line = (mode, balance))
    (released : (g.push line).1 = some text) :
    ¬ (0 < g.depth + balance ∨ mode.isOpen = true) ∧ g.push line = (some (g.lead ++ line), {}) ∧
      text = g.lead ++ line := by
  by_cases isOpen : 0 < g.depth + balance ∨ mode.isOpen = true
  · rw [push_of_open scan isOpen] at released
    cases released
  · rw [push_of_closed scan isOpen] at released ⊢
    split_ifs at released ⊢
    exact ⟨isOpen, rfl, (Option.some.inj released).symm⟩

/-- **A program is not withheld.** -/
theorem Holds.push_of_read {g : LineGatherer} {kept : List (List Char)} (h : g.Holds kept)
    {line : List Char} (noFeed : '\n' ∉ line) {symbols known : SymbolTable} {forms : List Datum}
    (read : readAll (String.ofList (g.lead ++ line)) symbols = (.ok forms, known))
    (filled : forms ≠ []) : (g.push line).1 = some (g.lead ++ line) := by
  have finished := unfailed_of_readAll (by rw [read]; rfl)
  rw [readAll_of_unfailed finished] at read
  rw [String.toList_ofList, Reader.scan, ← run_reading] at finished read
  have begun := State.unfailed_of_finish finished
  have goal := (State.goal_run (g.reading symbols) line).trans (g.goal_reading symbols)
  generalize scan : (if g.inString then LineMode.string else .code).scan line = scanned
  obtain ⟨mode, balance⟩ := scanned
  obtain ⟨none, closed⟩ := (h.tallies noFeed scan begun).closed goal finished
  rw [push_of_closed scan (by simp [none, closed])]
  refine if_neg fun blank => filled ?_
  rw [run_reading] at begun read
  obtain ⟨nothing, -⟩ := State.finish_blank blank begun
  rw [nothing] at read
  exact (Except.ok.inj (Prod.mk.inj read).1).symm

/-- **A list or a string is not cut off.** -/
theorem Holds.endsInMark {g : LineGatherer} {kept : List (List Char)} (h : g.Holds kept)
    {line text : List Char} (noFeed : '\n' ∉ line) (released : (g.push line).1 = some text)
    {symbols known : SymbolTable} {report : ParseError}
    (read : readAll (String.ofList text) symbols = (.error report, known))
    (early : report.kind = .incomplete) : EndsInMark text := by
  generalize scan : (if g.inString then LineMode.string else .code).scan line = scanned
  obtain ⟨mode, balance⟩ := scanned
  obtain ⟨closed, -, rfl⟩ := closed_of_push scan released
  obtain ⟨fault, fails, rfl⟩ := exists_fails_of_error read
  have failed := fails_iff.mp fails
  rw [String.toList_ofList] at failed
  have early : fault.cause = .endOfText := Cause.eq_endOfText early
  have begun : ((State.initial .all symbols).run (g.lead ++ line)).Unfailed := by
    -- A fault before the end of the text would be reported, and it has another cause.
    intro found met
    obtain rfl := Mode.failed.inj ((State.finish_of_failed met).symm.trans failed)
    have fits := State.fits_initial symbols (g.lead ++ line)
    rw [met] at fits
    exact fits.1 early
  rw [← run_reading] at begun
  have tallies := h.tallies noFeed scan begun
  rw [run_reading] at tallies
  exact endsInMark_of_early failed early tallies closed

/-- **Lines are gathered as they are read.**  Whatever lines and resets came before, a text that is
released is the one of the lines since the last release, drop or reset, and nothing is kept then.
A text that can be read and holds a form is released.  And a text that is released and ends too
early ends in a mark outside all brackets, so that no list and no string is cut off. -/
theorem Gathers.released_whole {g : LineGatherer} {kept : List (List Char)} (h : g.Gathers kept)
    {line : List Char} (noFeed : '\n' ∉ line) (symbols : SymbolTable) :
    let text := ['\n'].intercalate (kept ++ [line])
    (∀ released, (g.push line).1 = some released → g.push line = (some text, {})) ∧
    (∀ forms known, readAll (String.ofList text) symbols = (.ok forms, known) → forms ≠ [] →
      (g.push line).1 = some text) ∧
    (∀ released report known, (g.push line).1 = some released →
      readAll (String.ofList released) symbols = (.error report, known) →
      report.kind = .incomplete → EndsInMark released) := by
  have holds := h.holds
  rw [← holds.text]
  refine ⟨fun released pushed => (closed_of_push rfl pushed).2.1,
    fun forms known read filled => holds.push_of_read noFeed read filled,
    fun released report known pushed read early => holds.endsInMark noFeed pushed read early⟩

/-- A list over two lines is released when it is complete.  With a quote after it it is released
too, and the quote is then cut off from its operand. -/
theorem released_whole_quoted :
    let g := (push {} "(a".toList).2
    let whole := "(a\nb)".toList
    let quoted := "(a\nb) '".toList
    g.Gathers ["(a".toList] ∧ '\n' ∉ "b)".toList ∧ '\n' ∉ "b) '".toList ∧
    (∃ form known, readAll (String.ofList whole) .initial = (.ok [form], known)) ∧
    g.push "b)".toList = (some whole, {}) ∧
    Fails (String.ofList quoted) .initial ⟨.endOfText, 7⟩ ∧
    g.push "b) '".toList = (some quoted, {}) ∧ EndsInMark quoted := by
  intro g whole quoted
  have gathers : g.Gathers ["(a".toList] := .kept .start (by decide +kernel) rfl rfl
  have noFeed : '\n' ∉ "b)".toList ∧ '\n' ∉ "b) '".toList := by decide +kernel
  obtain ⟨same, released, -⟩ := gathers.released_whole noFeed.1 .initial
  obtain ⟨same', -, cut⟩ := gathers.released_whole noFeed.2 .initial
  obtain ⟨form, known, read⟩ : ∃ form known,
      readAll (String.ofList "(a\nb)".toList) .initial = (.ok [form], known) :=
    ⟨.pair (.symbol ⟨7, "a"⟩) (.pair (.symbol ⟨8, "b"⟩) .nil), _,
      readAll_of_toOption (by decide +kernel)⟩
  have fails : Fails (String.ofList quoted) .initial ⟨.endOfText, 7⟩ :=
    fails_iff.mpr (by decide +kernel)
  have pushed : (g.push "b) '".toList).1 = some quoted := by decide +kernel
  exact ⟨gathers, noFeed.1, noFeed.2, ⟨form, known, read⟩,
    same _ (released _ _ read (List.cons_ne_nil _ _)), fails, same' _ pushed,
    cut _ _ _ pushed (readAll_of_fails fails) rfl⟩

end LineGatherer

end GuardedLisp
