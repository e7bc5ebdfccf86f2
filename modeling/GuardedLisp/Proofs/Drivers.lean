import GuardedLisp.Interpreter

/-!
# Texts that an interpreter takes

An interpreter takes a text for the value of its last form, for the outcomes of all its forms, or
for a report about them.  What is observed of it is what it answers and what it prints.

## Main definitions

* `Driver`, `Interpreter.serve`, `Interpreter.serveAll`: a text that is taken in one of three ways,
  and texts that are taken one after another
* `Observation`: what is observed of a text
* `Observation.shown`: the same as texts
* `Interpreter.knowing`: the same interpreter with another symbol table
* `Interpreter.andThen`: what follows an operation unless that fails

## Main results

* `Interpreter.evalSource_eq_andThen`, `Interpreter.runSource_eq_andThen`,
  `Interpreter.loadSource_eq_andThen`: all three ways read the text first, and go on if it can be
  read
-/

namespace GuardedLisp

/-- The ways in which an interpreter takes a text. -/
inductive Driver where
  /-- For the value of the last form. -/
  | eval
  /-- For the outcomes of all forms. -/
  | run
  /-- For a report about all forms. -/
  | load
deriving DecidableEq, Repr

/-- What comes of a text that can be read. -/
inductive Answer (ν : Type) where
  | value (v : ν)
  | outcomes (outcomes : List (Except Error ν))
  /-- How many forms succeeded, the texts and the errors of those that failed, and the value of the
  last one that succeeded. -/
  | report (succeeded : Nat) (failures : List (String × Error)) (last : Option ν)

namespace Answer

/-- The answer with something else for every value. -/
def map (f : ν → μ) : Answer ν → Answer μ
  | value v => value (f v)
  | outcomes all => outcomes (all.map (Except.map f))
  | report succeeded failures last => report succeeded failures (last.map f)

/-- The answer that a report is. -/
def ofReport (r : LoadReport) : Answer Value := report r.succeeded r.failures r.last

theorem map_map (g : μ → κ) (f : ν → μ) (answer : Answer ν) :
    (answer.map f).map g = answer.map (g ∘ f) := by
  have twice (outcome : Except Error ν) : (outcome.map f).map g = outcome.map (g ∘ f) := by
    cases outcome <;> rfl
  cases answer with
  | value v => rfl
  | outcomes all =>
    rw [map, map, map, List.map_map, show Except.map g ∘ Except.map f = _ from funext twice]
  | report succeeded failures last => rw [map, map, map, Option.map_map]

end Answer

/-- What is observed of a text: what came of it, and all that has been printed since the output was
last taken out. -/
structure Observation (ν : Type) where
  answer : Except Error (Answer ν)
  printed : String

namespace Observation

/-- The observation with something else for every value. -/
def map (f : ν → μ) (seen : Observation ν) : Observation μ :=
  ⟨seen.answer.map (Answer.map f), seen.printed⟩

/-- What is observed, with values as texts. -/
def shown (seen : Observation Value) : Observation String := seen.map Value.text

theorem map_map (g : μ → κ) (f : ν → μ) (seen : Observation ν) :
    (seen.map f).map g = seen.map (g ∘ f) := by
  obtain ⟨answer, printed⟩ := seen
  cases answer with
  | error e => rfl
  | ok answer => simp only [map, Except.map, Answer.map_map]

end Observation

namespace Interpreter

/-- Takes a text. -/
def serve (i : Interpreter) (driver : Driver) (source : String) :
    Observation Value × Interpreter :=
  let (answer, i) : Except Error (Answer Value) × Interpreter :=
    match driver with
    | .eval => ((i.evalSource source).1.map .value, (i.evalSource source).2)
    | .run => ((i.runSource source).1.map .outcomes, (i.runSource source).2)
    | .load => ((i.loadSource source).1.map .ofReport, (i.loadSource source).2)
  (⟨answer, i.store.output⟩, i)

/-- Takes texts one after another. -/
def serveAll (i : Interpreter) : List (Driver × String) → List (Observation Value) × Interpreter
  | [] => ([], i)
  | (driver, source) :: script =>
    let (observed, i) := i.serve driver source
    let (later, i) := i.serveAll script
    (observed :: later, i)

/-- The same interpreter with another symbol table. -/
def knowing (table : SymbolTable) (i : Interpreter) : Interpreter := { i with symbols := table }

/-- What follows an operation unless that fails. -/
def andThen {α β : Type} (ran : Except Error α × Interpreter)
    (next : α → Interpreter → Except Error β × Interpreter) : Except Error β × Interpreter :=
  match ran with
  | (.ok a, i) => next a i
  | (.error e, i) => (.error e, i)

theorem evalForms_cons (i : Interpreter) (last form : Value) (forms : List Value) :
    i.evalForms last (form :: forms) =
      andThen (i.eval form) fun value i => i.evalForms value forms := by
  rw [evalForms]
  obtain ⟨outcome, j⟩ := i.eval form
  cases outcome <;> rfl

theorem evalSource_eq_andThen (i : Interpreter) (source : String) :
    i.evalSource source = andThen (i.readAll source) fun forms i => i.evalForms .nil forms := by
  unfold evalSource
  obtain ⟨outcome, j⟩ := i.readAll source
  cases outcome <;> rfl

theorem runSource_eq_andThen (i : Interpreter) (source : String) :
    i.runSource source = andThen (i.readAll source) fun forms i =>
      (.ok (i.runForms forms).1, (i.runForms forms).2) := by
  unfold runSource
  obtain ⟨outcome, j⟩ := i.readAll source
  cases outcome <;> rfl

theorem loadSource_eq_andThen (i : Interpreter) (source : String) :
    i.loadSource source = andThen (i.readAll source) fun forms i =>
      (.ok (i.loadForms {} forms).1, (i.loadForms {} forms).2) := by
  unfold loadSource
  obtain ⟨outcome, j⟩ := i.readAll source
  cases outcome <;> rfl

end Interpreter

end GuardedLisp
