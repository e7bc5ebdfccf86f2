import GuardedLisp.Eval.Basic
import GuardedLisp.Reader

/-!
# Interpreters

An interpreter owns a symbol table and a store, and evaluates what it reads in the global frame.

Reading comes first: a text with a fault in it changes the symbol table and nothing else.  The
forms of a text are then evaluated in order, and the ways to do so differ in what a failing form
means for those after it.

## Main definitions

* `Interpreter.evalSource`: the value of the last form; the first failure ends it
* `Interpreter.runSource`: the outcome of every form
* `Interpreter.loadSource`: a report about all forms
-/

namespace GuardedLisp

/-- The global frame. -/
def globalScope : Scope := ⟨0, []⟩

/-- The number of the class that is bound from the start. -/
def baseClass : ClassId := 0

/-- What has a name from the start, in the order in which the names are bound. -/
def globalValues : List (String × Value) :=
  Builtin.all.map (fun op => (op.name, .builtin op)) ++
    [("nil", .nil), ("true", .bool true), ("false", .bool false),
      ("BaseClass", .classObject baseClass)]

/-- The table in which these names have been interned, after the keywords. -/
def SymbolTable.global : SymbolTable := initial.insertAll (globalValues.map Prod.fst)

/-- The symbol that a text has from the start, if it is a keyword or a name from the start. -/
def Symbol.global (name : String) : Symbol := (SymbolTable.global.intern name).1

/-- What the global frame binds from the start. -/
def globalBindings : List (Symbol × Value) :=
  globalValues.map fun entry => (.global entry.1, entry.2)

/-- The store from the start: a global frame, and a class without slots. -/
def Store.initial : Store :=
  let global :=
    globalBindings.foldl (fun (table : SlotTable) entry => table.store entry.1 entry.2) {}
  { frames := #[global], classes := #[{}] }

/-- A symbol table, a store, and the limit on nesting. -/
structure Interpreter where
  symbols : SymbolTable
  store : Store
  limit : Nat
deriving DecidableEq, Repr

/-- What loading a text came to: how many forms succeeded, the text and the error of every form
that failed, and the value of the last form that succeeded. -/
structure LoadReport where
  succeeded : Nat := 0
  failures : List (String × Error) := []
  last : Option Value := none
deriving DecidableEq, Repr

/-- Adds the outcome of one form to a report. -/
def LoadReport.add (report : LoadReport) (form : Value) :
    Except Error Value → LoadReport
  | .ok value => { report with succeeded := report.succeeded + 1, last := some value }
  | .error e => { report with failures := report.failures ++ [(form.text, e)] }

namespace Interpreter

/-- A fresh interpreter. -/
def fresh (limit : Nat) : Interpreter where
  symbols := .global
  store := .initial
  limit

instance : Inhabited Interpreter := ⟨fresh defaultLimit⟩

/-- Evaluation starts at the outermost level without a grant. -/
def context (i : Interpreter) : Context := { limit := i.limit }

/-- Numbers a symbol. -/
def intern (i : Interpreter) (name : String) : Symbol × Interpreter :=
  let (symbol, symbols) := i.symbols.intern name
  (symbol, { i with symbols })

/-- Runs a computation on the store. -/
def perform (i : Interpreter) (x : EvalM α) : Except Error α × Interpreter :=
  let { symbols, store, limit } := i
  match x store with
  | .ok a store => (.ok a, { symbols, store, limit })
  | .error e store => (.error e, { symbols, store, limit })

/-- The values of data that have been read, or the error of the reader. -/
def accept (i : Interpreter) (outcome : Except ParseError α) (make : α → Alloc β) :
    Except Error β × Interpreter :=
  match outcome with
  | .error report => (.error (.parse report), i)
  | .ok data => i.perform (EvalM.alloc (make data))

/-- Reads all forms of a text. -/
def readAll (i : Interpreter) (source : String) : Except Error (List Value) × Interpreter :=
  let (outcome, symbols) := Reader.readAll source i.symbols
  { i with symbols }.accept outcome fun forms => forms.mapM Alloc.ofDatum

/-- Reads the form of a text that holds exactly one. -/
def readOne (i : Interpreter) (source : String) : Except Error Value × Interpreter :=
  let (outcome, symbols) := Reader.readOne source i.symbols
  { i with symbols }.accept outcome Alloc.ofDatum

/-- Evaluates a form in the global frame. -/
def eval (i : Interpreter) (form : Value) : Except Error Value × Interpreter :=
  i.perform (i.context.eval globalScope form)

/-- The value of the last of some forms after those before it, or the first error. -/
def evalForms (i : Interpreter) (last : Value) : List Value → Except Error Value × Interpreter
  | [] => (.ok last, i)
  | form :: forms =>
    match i.eval form with
    | (.ok value, i) => i.evalForms value forms
    | (.error e, i) => (.error e, i)

/-- Reads a text and evaluates its forms up to the first failure.  The value is that of the last
form, and `nil` if there is none. -/
def evalSource (i : Interpreter) (source : String) : Except Error Value × Interpreter :=
  match i.readAll source with
  | (.ok forms, i) => i.evalForms .nil forms
  | (.error e, i) => (.error e, i)

/-- The outcomes of all of some forms. -/
def runForms (i : Interpreter) : List Value → List (Except Error Value) × Interpreter
  | [] => ([], i)
  | form :: forms =>
    let (outcome, i) := i.eval form
    let (outcomes, i) := i.runForms forms
    (outcome :: outcomes, i)

/-- Reads a text and evaluates all its forms. -/
def runSource (i : Interpreter) (source : String) :
    Except Error (List (Except Error Value)) × Interpreter :=
  match i.readAll source with
  | (.ok forms, i) =>
    let (outcomes, i) := i.runForms forms
    (.ok outcomes, i)
  | (.error e, i) => (.error e, i)

/-- Evaluates all of some forms and reports about them. -/
def loadForms (i : Interpreter) (report : LoadReport) : List Value → LoadReport × Interpreter
  | [] => (report, i)
  | form :: forms =>
    let (outcome, i) := i.eval form
    i.loadForms (report.add form outcome) forms

/-- Reads a text, evaluates all its forms and reports about them. -/
def loadSource (i : Interpreter) (source : String) : Except Error LoadReport × Interpreter :=
  match i.readAll source with
  | (.ok forms, i) =>
    let (report, i) := i.loadForms {} forms
    (.ok report, i)
  | (.error e, i) => (.error e, i)

/-- What is seen in the global frame, arranged by name. -/
def bindings (i : Interpreter) : List (Symbol × Value) := i.store.bindings globalScope

/-- The text that has been printed, and the interpreter after it has been taken out. -/
def takeOutput (i : Interpreter) : String × Interpreter :=
  let { symbols, store, limit } := i
  (store.output, { symbols, store := { store with output := "" }, limit })

end Interpreter

end GuardedLisp
