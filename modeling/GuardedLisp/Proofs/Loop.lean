import GuardedLisp.Proofs.Printed
import GuardedLisp.Proofs.Texts

/-!
# A text line by line

A text may be run as a whole, or be typed line by line into a session, which gathers lines until
the brackets balance and then reads and evaluates what it has gathered.  The session reads the
second form after it has evaluated the first one, and takes out what has been printed after each of
them.  It comes to the same: the reader agrees with the count of brackets, it does not matter
whether forms are read ahead, and evaluation does not look at what has been printed.

Values that are made on the way may have other addresses.  The renaming between the two runs is
injective and leaves alone what was there before, so no program and no text that is shown can tell
them apart.

## Main definitions

* `Session.feed`: what a session answers to some lines, and how it goes on
* `LoadReport.ofOutcomes`: the report about forms with given outcomes

## Main results

* `Session.feed_eq`: a session shows what is told of the texts that are released
* `Session.feed_agrees`: a session that is given the lines of a text does what running it does
-/

namespace GuardedLisp

/-! ## Sessions -/

namespace Session

/-- What a session answers to some lines, its prompts aside, and how it goes on unless it ends. -/
def feed (session : Session) : List (List Char) → String × Option Session
  | [] => ("", some session)
  | line :: lines =>
    match session.step line with
    | ⟨output, none⟩ => (output, none)
    | ⟨output, some session⟩ => (output ++ (session.feed lines).1, (session.feed lines).2)

/-- What is shown of a text: what is told of its forms, or that it cannot be read. -/
def shown : Except Error (List (String × Except Error Value)) → String
  | .ok told => String.join (told.map replyText)
  | .error e => unlines ["Error: " ++ e.message]

theorem evalText_eq (i : Interpreter) (source : String) :
    evalText i source = (shown (i.runWith .told source).1, (i.runWith .told source).2) := by
  unfold evalText Interpreter.runWith
  obtain ⟨read, after⟩ := i.readAll source
  cases read with
  | ok forms => exact evalForms_eq after forms
  | error e => rfl

/-- Unless a line that begins a text is a command, a session shows the texts that are released. -/
theorem feed_eq (i : Interpreter) (g : LineGatherer) (lines : List (List Char))
    (plain : ∀ line ∈ g.openings lines, Command.ofLine? line = none) :
    feed ⟨i, g⟩ lines =
      (String.join ((i.runEach .told ((g.release lines).1.map String.ofList)).1.map shown),
        some ⟨(i.runEach .told ((g.release lines).1.map String.ofList)).2,
          (g.release lines).2⟩) := by
  induction lines generalizing i g with
  | nil => rfl
  | cons line lines ih =>
    have gathered : step ⟨i, g⟩ line = gather ⟨i, g⟩ line := by
      unfold step
      split
      · rfl
      · next empty =>
        have first : line ∈ g.openings (line :: lines) := by
          rw [LineGatherer.openings, if_neg empty]
          exact List.mem_cons_self
        rw [plain line first]
    have later : ∀ next ∈ (g.push line).2.openings lines, Command.ofLine? next = none :=
      fun next mem => plain next (List.mem_append_right _ mem)
    rw [feed, gathered]
    simp only [gather, LineGatherer.release]
    generalize g.push line = pushed at later ⊢
    obtain ⟨text, kept⟩ := pushed
    cases text with
    | none =>
      simp only [ih i kept later, String.empty_append, Option.toList_none, List.nil_append]
    | some text =>
      simp only [ih _ kept later, evalText_eq, Option.toList_some, List.cons_append,
        List.nil_append, List.map_cons, Interpreter.runEach, String.join_cons]

theorem join_shown (groups : List (List (String × Except Error Value))) :
    String.join ((groups.map Except.ok).map shown) =
      String.join (groups.flatten.map replyText) := by
  induction groups with
  | nil => rfl
  | cons told groups ih =>
    rw [List.map_cons, List.map_cons, String.join_cons, ih, List.flatten_cons, List.map_append,
      String.join_append]
    rfl

end Session

/-! ## Reports -/

/-- The report about forms with given outcomes. -/
def LoadReport.ofOutcomes (forms : List Value) (outcomes : List (Except Error Value)) :
    LoadReport :=
  (forms.zip outcomes).foldl (fun report entry => report.add entry.1 entry.2) {}

namespace Interpreter

theorem loadForms_eq (i : Interpreter) (report : LoadReport) (forms : List Value) :
    i.loadForms report forms =
      ((forms.zip (i.runForms forms).1).foldl (fun report entry => report.add entry.1 entry.2)
        report, (i.runForms forms).2) := by
  induction forms generalizing i report with
  | nil => rfl
  | cons form forms ih => simp only [loadForms, ih, runForms, List.zip_cons_cons, List.foldl_cons]

/-- What running and loading a text come to, if it is told what its forms print and come to. -/
theorem runSource_of_told {i j : Interpreter} {source : String}
    {told : List (String × Except Error Value)}
    (ran : i.runWith .told source = (.ok told, j)) :
    ∃ forms, (i.readAll source).1 = .ok forms ∧ told.length = forms.length ∧
      i.runSource source =
        (.ok (told.map Prod.snd), j.behind (String.join (told.map Prod.fst))) ∧
      i.loadSource source =
        (.ok (.ofOutcomes forms (told.map Prod.snd)),
          j.behind (String.join (told.map Prod.fst))) ∧
      ∀ k < forms.length,
        ((i.readAll source).2.runForms (forms.take (k + 1))).2.store.output =
          String.join ((told.take (k + 1)).map Prod.fst) := by
  rcases known : i.readAll source with ⟨read, start⟩
  cases read with
  | error e =>
    simp only [runWith, known] at ran
    cases ran
  | ok forms =>
    simp only [runWith, known, Prod.mk.injEq, Except.ok.injEq] at ran
    obtain ⟨rfl, rfl⟩ := ran
    have run := start.runForms_eq_told forms
    refine ⟨forms, rfl, start.length_turns .told forms, ?_, ?_, fun k within => ?_⟩
    · simp only [runSource, known, run]
    · simp only [loadSource, known, loadForms_eq, run]
      rfl
    · exact start.output_runForms_take within

end Interpreter

/-! ## The session and the file -/

namespace Session

/-- **A text line by line comes to the same as a whole.**  Let a text without carriage returns hold
no fault, and let no line end part a mark outside all lists from its operand.  Let the store hold
no address that has not been taken, as is the case from the start and after every text that is run
(`below_fresh`, `below_runWith`).

A session that is given the lines takes none of them for a command and keeps none of them in the
end.  For every form it shows what the form has printed and then its value or its error.  There are
as many of these as the text has forms, and they are what running or loading the text comes to:

* the values and errors are the outcomes of the forms, in their order;
* what is shown before each of them is what the form prints;
* the session ends with the interpreter that running the text ends with, with the same symbols and
  the same slots everywhere, but that what has been printed has been taken out.

Values that have been made on the way may have other addresses. -/
theorem feed_agrees (i : Interpreter) (source : String)
    (below : i.store.Below i.store.nextAddress)
    (noReturn : '\r' ∉ source.toList)
    (accepted : (Reader.readAll source i.symbols).1.isOk = true)
    (settled : ∀ before after, source.toList = before ++ '\n' :: after →
      ((Reader.State.initial .all i.symbols).run before).awaitsOperand = false) :
    ∃ (f : Address → Address) (told : List (String × Except Error Value)) (last : Interpreter)
      (forms : List Value) (final : Interpreter),
      Function.Injective f ∧ (∀ a < i.store.nextAddress, f a = a) ∧
      feed ⟨i, {}⟩ (source.toList.splitOn '\n') =
        (String.join (told.map replyText), some ⟨last, {}⟩) ∧
      (i.readAll source).1 = .ok forms ∧ told.length = forms.length ∧
      i.runSource source = (.ok (told.map fun entry => renameOutcome f entry.2), final) ∧
      i.loadSource source =
        (.ok (.ofOutcomes forms (told.map fun entry => renameOutcome f entry.2)), final) ∧
      (∀ k < forms.length,
        ((i.readAll source).2.runForms (forms.take (k + 1))).2.store.output =
          String.join ((told.take (k + 1)).map Prod.fst)) ∧
      final = (last.rename f last.store.nextAddress).behind
        (String.join (told.map Prod.fst)) := by
  -- The texts that are released are read in turn, and hold the forms of the whole text.
  have unfailed := Reader.unfailed_of_readAll accepted
  obtain ⟨kept, ⟨groups, read, found⟩, begun⟩ := LineGatherer.yields_of_finish source.toList
    noReturn {} i.symbols [] 0 ⟨rfl, rfl⟩ unfailed settled
  have whole : Reader.readAll source i.symbols = (.ok groups.flatten,
      (Reader.scan .all source.toList i.symbols).symbols) := by
    rw [Reader.readAll_of_unfailed unfailed]
    exact congrArg (fun data => (Except.ok data, _)) found
  obtain ⟨f, made, injective, old, each, ran⟩ :=
    Interpreter.runWith_of_readInTurn .told below whole read
  set last := (i.runEach .told
    ((LineGatherer.release {} (source.toList.splitOn '\n')).1.map String.ofList)).2
  obtain ⟨forms, known, length, run, load, printed⟩ := Interpreter.runSource_of_told ran
  have texts (entries : List (String × Except Error Value)) :
      (entries.map (Turn.told.rename f)).map Prod.fst = entries.map Prod.fst := by
    rw [List.map_map]
    rfl
  have outcomes : (made.flatten.map (Turn.told.rename f)).map Prod.snd =
      made.flatten.map fun entry => renameOutcome f entry.2 := by
    rw [List.map_map]
    rfl
  rw [List.length_map] at length
  rw [texts, outcomes] at run load
  simp only [← List.map_take, texts] at printed
  have plain : ∀ line ∈ LineGatherer.openings {} (source.toList.splitOn '\n'),
      Command.ofLine? line = none := by
    intro line mem
    obtain ⟨symbols, readable⟩ := begun line mem
    exact Command.ofLine?_of_unfailed readable
  refine ⟨f, made.flatten, last, forms, _, injective, old, ?_, known, length, run, load, printed,
    rfl⟩
  rw [feed_eq i {} _ plain, each, kept, join_shown]

/-- A text over several lines, with a note, a blank line, and a string that goes on over a line
end. -/
def typedText : String :=
  "(define a '(1 . 2)) ; a note\n\n(define (same? x)\n  (is? x a))\n(display \"a\nb\") (same? 1)"

/-- In a fresh interpreter the text comes to the same in a session as in a file. -/
theorem feed_typedText :
    ∃ (f : Address → Address) (told : List (String × Except Error Value)) (last : Interpreter)
      (forms : List Value) (final : Interpreter),
      Function.Injective f ∧ (∀ a < (Interpreter.fresh 128).store.nextAddress, f a = a) ∧
      feed ⟨.fresh 128, {}⟩ (typedText.toList.splitOn '\n') =
        (String.join (told.map replyText), some ⟨last, {}⟩) ∧
      ((Interpreter.fresh 128).readAll typedText).1 = .ok forms ∧ told.length = forms.length ∧
      (Interpreter.fresh 128).runSource typedText =
        (.ok (told.map fun entry => renameOutcome f entry.2), final) ∧
      (Interpreter.fresh 128).loadSource typedText =
        (.ok (.ofOutcomes forms (told.map fun entry => renameOutcome f entry.2)), final) ∧
      (∀ k < forms.length,
        (((Interpreter.fresh 128).readAll typedText).2.runForms
            (forms.take (k + 1))).2.store.output =
          String.join ((told.take (k + 1)).map Prod.fst)) ∧
      final = (last.rename f last.store.nextAddress).behind
        (String.join (told.map Prod.fst)) := by
  have settled : ∀ k < typedText.toList.length, typedText.toList[k]? = some '\n' →
      ((Reader.State.initial .all (Interpreter.fresh 128).symbols).run
        (typedText.toList.take k)).awaitsOperand = false := by
    decide +kernel
  refine feed_agrees (.fresh 128) typedText (Interpreter.below_fresh 128) (by decide +kernel)
    (by decide +kernel) fun before after same => ?_
  have here := settled before.length (by simp [same]) (by simp [same])
  rwa [same, List.take_left] at here

end Session

end GuardedLisp
