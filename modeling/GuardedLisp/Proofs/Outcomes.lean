import GuardedLisp.Proofs.Loop
import GuardedLisp.Proofs.Drivers

/-!
# Outcomes of the forms of a text

A text is taken for the value of its last form, for the outcomes of all forms, or for a report about
them.  All three read the text first and go no further if it is rejected.  What becomes of the forms
is fixed by the outcomes of all of them: the report counts and lists these, and the value is that of
the last form unless an outcome is an error, which is where evaluation stops.

## Main definitions

* `Outcome.failure?`: what a report says about a form that fails

## Main results

* `LoadReport.ofOutcomes_eq`: what is reported
* `Interpreter.evalForms_of_values`, `Interpreter.evalForms_of_failure`: where evaluation ends
* `Interpreter.drivers_agree`: the three ways to take a text agree
-/

namespace GuardedLisp

/-- What a report says about a form that fails: its text and the error. -/
def LoadReport.failure? : Value × Except Error Value → Option (String × Error)
  | (form, .error e) => some (form.text, e)
  | (_, .ok _) => none

namespace LoadReport

/-- The outcomes of more forms are added to what has been reported about those before. -/
theorem foldl_add (report : LoadReport) (entries : List (Value × Except Error Value)) :
    entries.foldl (fun report entry => report.add entry.1 entry.2) report =
      { succeeded := report.succeeded + (entries.map Prod.snd).countP Except.isOk
        failures := report.failures ++ entries.filterMap failure?
        last := ((entries.map Prod.snd).filterMap Except.toOption).getLast?.or report.last } := by
  induction entries generalizing report with
  | nil => simp
  | cons entry entries ih =>
    obtain ⟨form, outcome⟩ := entry
    rw [List.foldl_cons, ih, List.map_cons]
    cases outcome with
    | ok value =>
      have listed : ((form, .ok value) :: entries).filterMap failure? =
          entries.filterMap failure? := List.filterMap_cons_none rfl
      rw [List.countP_cons_of_pos rfl, listed]
      simp only [add, List.filterMap_cons, Except.toOption, List.getLast?_cons, Option.or_some,
        Option.some_or, Nat.add_assoc, Nat.add_comm 1]
    | error e =>
      have listed : ((form, .error e) :: entries).filterMap failure? =
          (form.text, e) :: entries.filterMap failure? := List.filterMap_cons_some rfl
      rw [List.countP_cons_of_neg Bool.false_ne_true, listed]
      simp only [add, List.filterMap_cons, Except.toOption, List.append_assoc,
        List.singleton_append]

/-- **What is reported** about forms: how many succeed, the texts and the errors of those that fail,
in order, and the value of the last one that succeeds. -/
theorem ofOutcomes_eq {forms : List Value} {outcomes : List (Except Error Value)}
    (each : outcomes.length = forms.length) :
    ofOutcomes forms outcomes =
      { succeeded := outcomes.countP Except.isOk
        failures := (forms.zip outcomes).filterMap failure?
        last := (outcomes.filterMap Except.toOption).getLast? } := by
  rw [ofOutcomes, foldl_add, List.map_snd_zip (Nat.le_of_eq each)]
  simp

end LoadReport

/-- Outcomes are values throughout, or there is a first one that is an error. -/
theorem exists_values (outcomes : List (Except Error Value)) :
    ∃ values : List Value, outcomes = values.map .ok ∨
      ∃ e later, outcomes = values.map .ok ++ .error e :: later := by
  induction outcomes with
  | nil => exact ⟨[], .inl rfl⟩
  | cons outcome outcomes ih =>
    cases outcome with
    | error e => exact ⟨[], .inr ⟨e, outcomes, rfl⟩⟩
    | ok value =>
      obtain ⟨values, rfl | ⟨e, later, rfl⟩⟩ := ih
      · exact ⟨value :: values, .inl rfl⟩
      · exact ⟨value :: values, .inr ⟨e, later, rfl⟩⟩

namespace Interpreter

variable {i : Interpreter} {forms : List Value} {values : List Value} {e : Error}

theorem runForms_cons (i : Interpreter) (form : Value) (forms : List Value) :
    i.runForms (form :: forms) =
      ((i.eval form).1 :: ((i.eval form).2.runForms forms).1,
        ((i.eval form).2.runForms forms).2) :=
  rfl

theorem length_runForms (i : Interpreter) (forms : List Value) :
    (i.runForms forms).1.length = forms.length := by
  induction forms generalizing i with
  | nil => rfl
  | cons form forms ih => exact congrArg (· + 1) (ih _)

/-- If all forms succeed, the value is that of the last one. -/
theorem evalForms_of_values (ran : (i.runForms forms).1 = values.map .ok) (last : Value) :
    i.evalForms last forms = (.ok (values.getLast?.getD last), (i.runForms forms).2) := by
  induction forms generalizing i values last with
  | nil =>
    obtain rfl := List.map_eq_nil_iff.mp ran.symm
    rfl
  | cons form forms ih =>
    rw [runForms_cons] at ran ⊢
    obtain ⟨value, values, rfl, first, later⟩ := List.map_eq_cons_iff.mp ran.symm
    have done : i.eval form = (.ok value, (i.eval form).2) := Prod.ext first.symm rfl
    rw [evalForms_cons, done]
    show (i.eval form).2.evalForms value forms = _
    rw [ih later.symm value, List.getLast?_cons]
    rfl

/-- If a form fails after others that succeed, evaluation ends there, with what has been done up to
and including that form. -/
theorem evalForms_of_failure {later : List (Except Error Value)}
    (ran : (i.runForms forms).1 = values.map .ok ++ .error e :: later) (last : Value) :
    ∃ reached,
      i.runForms (forms.take (values.length + 1)) = (values.map .ok ++ [.error e], reached) ∧
      i.evalForms last forms = (.error e, reached) := by
  -- Induction on the forms; those before the failure take one value each.
  induction forms generalizing i values last with
  | nil => cases values <;> cases ran
  | cons form forms ih =>
    rw [runForms_cons] at ran
    cases values with
    | nil =>
      have failed : (i.eval form).1 = .error e := (List.cons.inj ran).1
      have done : i.eval form = (.error e, (i.eval form).2) := Prod.ext failed rfl
      refine ⟨(i.eval form).2, ?_, ?_⟩
      · rw [List.length_nil, List.take_succ_cons, List.take_zero, runForms_cons, failed]
        rfl
      · rw [evalForms_cons, done]
        rfl
    | cons value values =>
      have first : (i.eval form).1 = .ok value := (List.cons.inj ran).1
      have done : i.eval form = (.ok value, (i.eval form).2) := Prod.ext first rfl
      obtain ⟨reached, upTo, ended⟩ := ih (List.cons.inj ran).2 value
      refine ⟨reached, ?_, ?_⟩
      · rw [List.length_cons, List.take_succ_cons, runForms_cons, upTo, first]
        rfl
      · rw [evalForms_cons, done]
        exact ended

/-- What is read is made into values, which cannot fail. -/
theorem readAll_of_read {data : List Datum} {known : SymbolTable} {source : String}
    (read : Reader.readAll source i.symbols = (.ok data, known)) :
    ∃ forms start, i.readAll source = (.ok forms, start) := by
  rw [readAll, read]
  exact ⟨_, _, rfl⟩

/-- **The three ways to take a text agree.**  If it is rejected, all three return the error and
change nothing but the symbol table.  Otherwise let all its forms be run.  Loading it leaves the
same interpreter, and reports how many forms succeed, the text and the error of each one that fails,
in order, and the value of the last one that succeeds.  If all succeed, evaluation leaves the same
interpreter too, with the value of the last form, or `nil` if there is none.  Otherwise it ends with
the first error, and leaves the interpreter as it is when the forms have been run up to and
including the one that fails. -/
theorem drivers_agree (i : Interpreter) (source : String) :
    match Reader.readAll source i.symbols with
    | (.error report, known) =>
      i.evalSource source = (.error (.parse report), i.knowing known) ∧
      i.runSource source = (.error (.parse report), i.knowing known) ∧
      i.loadSource source = (.error (.parse report), i.knowing known)
    | (.ok _, _) => ∃ forms start outcomes last,
      i.readAll source = (.ok forms, start) ∧
      start.runForms forms = (outcomes, last) ∧
      outcomes.length = forms.length ∧
      i.runSource source = (.ok outcomes, last) ∧
      i.loadSource source =
        (.ok { succeeded := outcomes.countP Except.isOk
               failures := (forms.zip outcomes).filterMap LoadReport.failure?
               last := (outcomes.filterMap Except.toOption).getLast? }, last) ∧
      ((∃ values : List Value, outcomes = values.map .ok ∧
          i.evalSource source = (.ok (values.getLast?.getD .nil), last)) ∨
        ∃ (values : List Value) (e : Error) (later : List (Except Error Value))
            (reached : Interpreter),
          outcomes = values.map .ok ++ .error e :: later ∧
          start.runForms (forms.take (values.length + 1)) =
            (values.map .ok ++ [.error e], reached) ∧
          i.evalSource source = (.error e, reached)) := by
  split
  · next report known rejected =>
    have read : i.readAll source = (.error (.parse report), i.knowing known) := by
      rw [readAll, rejected]
      rfl
    rw [evalSource_eq_andThen, runSource_eq_andThen, loadSource_eq_andThen, read]
    exact ⟨rfl, rfl, rfl⟩
  · next accepted =>
    obtain ⟨forms, start, read⟩ := readAll_of_read accepted
    have each := length_runForms start forms
    rw [evalSource_eq_andThen, runSource_eq_andThen, loadSource_eq_andThen, read]
    refine ⟨forms, start, (start.runForms forms).1, (start.runForms forms).2, rfl, rfl, each, rfl,
      ?_, ?_⟩
    · rw [← LoadReport.ofOutcomes_eq each]
      simp only [andThen, loadForms_eq, LoadReport.ofOutcomes]
    · obtain ⟨values, ran | ⟨e, later, ran⟩⟩ := exists_values (start.runForms forms).1
      · exact .inl ⟨values, ran, evalForms_of_values ran .nil⟩
      · obtain ⟨reached, upTo, ended⟩ := evalForms_of_failure ran .nil
        exact .inr ⟨values, e, later, reached, ran, upTo, ended⟩

/-- After a form that fails, loading a text goes on and evaluating it does not. -/
example :
    ((fresh 128).evalSource "1 zap (define x 2)").1 = .error (.missingSymbol "zap") ∧
      ((fresh 128).loadSource "1 zap (define x 2)").1 =
        .ok { succeeded := 2, failures := [("zap", .missingSymbol "zap")], last := some .nil } := by
  decide +kernel

end Interpreter

end GuardedLisp
