import GuardedLisp.Interpreter
import GuardedLisp.LineGatherer

/-!
# Interactive sessions

A session takes one line at a time.  A line that completes an expression has it evaluated, and
every value or error is shown on a line of its own after what the evaluation printed.  A line that
is not inside an expression may also be a command, which starts with a colon.
-/

namespace GuardedLisp

/-- An interpreter, and the lines that wait for the end of an expression. -/
structure Session where
  interpreter : Interpreter
  gatherer : LineGatherer := {}
deriving DecidableEq, Repr

/-- What a session prints in answer to a line, and how it goes on unless it ends. -/
structure Reply where
  output : String
  session : Option Session
deriving DecidableEq, Repr

/-- The commands of a session. -/
inductive Command where
  | help
  | environment
  | quit
deriving DecidableEq, Repr

/-- The command that a line is, if it is one. -/
def Command.ofLine? (line : List Char) : Option Command :=
  match String.ofList (trimWhiteSpace line) with
  | ":help" => some .help
  | ":env" => some .environment
  | ":quit" | ":exit" => some .quit
  | _ => none

/-- Lines of text, each with its end. -/
def unlines (lines : List String) : String := String.join (lines.map fun line => line ++ "\n")

namespace Session

/-- The name and version of the program. -/
def version : String := "slotlisp 0.1.0"

/-- What is shown when a session starts. -/
def banner : String :=
  unlines [version, "Enter S-expressions like: (+ 1 2)",
    "Type :help for more commands, or Ctrl+D to exit.", ""]

/-- What is shown when a session ends. -/
def farewell : String := unlines ["Goodbye!"]

/-- What asks for a line. -/
def prompt (session : Session) : String :=
  if session.gatherer.isPending then "   ...> " else "slotlisp> "

/-- What the command for help shows. -/
def helpText : String :=
  unlines ["Commands:",
    "  :help      - Show this help message",
    "  :env       - Show global bindings",
    "  :quit      - Exit the interpreter",
    "  :exit      - Exit the interpreter",
    "  Ctrl+C     - Discard a partial expression",
    "  Ctrl+D     - Exit the interpreter",
    "",
    "Expressions spanning several lines are read until their brackets balance.",
    "",
    "Examples:",
    "  (define (square x) (* x x))",
    "  ((mac (x) `(* ,x ,x)) (+ 1 2))",
    "  (define Point (class BaseClass))",
    "  (class-define! Point x integer)",
    "  (class-set! Point x 10)",
    "  (Point x)",
    ""]

/-- Names in columns, four on a line. -/
def columns : List String → String
  | [] => ""
  | a :: b :: c :: d :: names => cell a ++ cell b ++ cell c ++ cell d ++ "\n" ++ columns names
  | names => String.join (names.map cell) ++ "\n"
where
  /-- A name that fills its column. -/
  cell (name : String) : String := "  " ++ String.ofList (name.toList.rightpad 16 ' ')

/-- What the command for the global bindings shows: how many there are, the names of those that
hold builtin operations, and the others with their values. -/
def environmentText (bindings : List (Symbol × Value)) : String :=
  let (builtins, others) := bindings.partition fun entry => entry.2.kind = .builtin
  unlines ["Environment bindings (" ++ toString bindings.length ++ " total):", ""] ++
    (if builtins.isEmpty then "" else
      unlines ["Built-in operations (" ++ toString builtins.length ++ "):"] ++
        columns (builtins.map fun entry => entry.1.name) ++ "\n") ++
    (if others.isEmpty then "" else
      unlines (("Values (" ++ toString others.length ++ "):") ::
        others.map fun entry => "  " ++ entry.1.name ++ " = " ++ entry.2.text))

/-- How an outcome is shown. -/
def outcomeText : Except Error Value → String
  | .ok value => value.text
  | .error e => "Error: " ++ e.message

/-- Evaluates forms in order.  The text is what they print, with the outcome of each after it. -/
def evalForms (i : Interpreter) : List Value → String × Interpreter
  | [] => ("", i)
  | form :: forms =>
    let (outcome, i) := i.eval form
    let (printed, i) := i.takeOutput
    let (text, i) := evalForms i forms
    (printed ++ unlines [outcomeText outcome] ++ text, i)

/-- Reads a text and evaluates its forms. -/
def evalText (i : Interpreter) (source : String) : String × Interpreter :=
  match i.readAll source with
  | (.ok forms, i) => evalForms i forms
  | (.error e, i) => (unlines ["Error: " ++ e.message], i)

/-- Takes a line that is no command. -/
def gather (session : Session) (line : List Char) : Reply :=
  match session.gatherer.push line with
  | (none, gatherer) => ⟨"", some { session with gatherer }⟩
  | (some source, gatherer) =>
    let (output, interpreter) := evalText session.interpreter (String.ofList source)
    ⟨output, some { interpreter, gatherer }⟩

/-- Takes a line. -/
def step (session : Session) (line : List Char) : Reply :=
  if session.gatherer.isPending then session.gather line
  else match Command.ofLine? line with
    | some .help => ⟨helpText, some session⟩
    | some .environment => ⟨environmentText session.interpreter.bindings, some session⟩
    | some .quit => ⟨farewell, none⟩
    | none => session.gather line

/-- What a session shows from its first prompt to its end if it is given some lines. -/
def transcript (session : Session) : List (List Char) → String
  | [] => session.prompt ++ farewell
  | line :: lines =>
    let reply := session.step line
    session.prompt ++ reply.output ++
      match reply.session with
      | some session => session.transcript lines
      | none => ""

end Session

end GuardedLisp
