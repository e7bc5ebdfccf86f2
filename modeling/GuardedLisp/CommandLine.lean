import GuardedLisp.Options
import GuardedLisp.Session

/-!
# The command line

Files are loaded first, in order.  Then the expression is evaluated; without one a session follows,
unless it is turned off.  The exit code tells whether a file or the expression failed; what fails in
a session does not count.
-/

namespace GuardedLisp

/-- How many levels of nesting a command line allows unless it says otherwise. -/
def commandLineLimit : Nat := 10000

/-- How far a command line has been carried out. -/
structure Progress where
  interpreter : Interpreter
  output : String := ""
  complaints : String := ""
  failed : Bool := false
deriving DecidableEq, Repr

namespace Progress

/-- Takes over what the interpreter has printed. -/
def flush (p : Progress) : Progress :=
  let (printed, interpreter) := p.interpreter.takeOutput
  { p with interpreter, output := p.output ++ printed }

/-- Adds lines of complaint. -/
def complain (p : Progress) (lines : List String) : Progress :=
  { p with complaints := p.complaints ++ unlines lines, failed := true }

/-- Loads a file whose text, or the reason why it cannot be read, is given. -/
def load (p : Progress) (path : String) (content : Except String String) : Progress :=
  match content with
  | .error reason => p.complain ["Error: cannot read " ++ path ++ ": " ++ reason]
  | .ok source =>
    match p.interpreter.loadSource source with
    | (.error e, interpreter) => { p with interpreter }.complain ["Error: " ++ e.message]
    | (.ok report, interpreter) =>
      let p := { p with interpreter }.flush
      if report.failures.isEmpty then p
      else p.complain <| report.failures.map fun (form, e) =>
        path ++ ": error in " ++ form ++ ": " ++ e.message

/-- Evaluates an expression and shows its value. -/
def eval (p : Progress) (source : String) : Progress :=
  let (outcome, interpreter) := p.interpreter.evalSource source
  let p := { p with interpreter }.flush
  match outcome with
  | .ok value => { p with output := p.output ++ unlines [value.text] }
  | .error e => p.complain ["Error: " ++ e.message]

end Progress

/-- What a program run leaves behind. -/
structure RunResult where
  exit : Nat
  output : String
  complaints : String
deriving DecidableEq, Repr

namespace Options

/-- Carries out options up to the session, which follows if there is one in the result. -/
def start (options : Options) (files : String → Except String String) :
    Progress × Option Session :=
  let p : Progress := { interpreter := .fresh (options.limit.getD commandLineLimit) }
  if options.version then
    ({ p with output := unlines [Session.version] }, none)
  else
    let p := options.load.foldl (fun p path => p.load path (files path)) p
    match options.eval with
    | some source => (p.eval source, none)
    | none =>
      if options.session then
        ({ p with output := p.output ++ Session.banner }, some { interpreter := p.interpreter })
      else (p, none)

/-- Carries out options with the given files and lines of input. -/
def run (options : Options) (files : String → Except String String) (lines : List (List Char)) :
    RunResult :=
  let (p, session) := options.start files
  let shown := match session with
    | some session => session.transcript lines
    | none => ""
  ⟨if p.failed then 1 else 0, p.output ++ shown, p.complaints⟩

end Options

/-- The lines of an input.  A line feed ends a line, and a carriage return before it belongs to
the line end. -/
def inputLines (text : List Char) : List (List Char) :=
  linesFrom [] text
where
  /-- The lines from where a line has begun with the given characters, latest first. -/
  linesFrom (begun : List Char) : List Char → List (List Char)
    | [] => if begun.isEmpty then [] else [begun.reverse]
    | c :: text =>
      if c = '\n' then (lineEnd begun).reverse :: linesFrom [] text
      else linesFrom (c :: begun) text
  /-- A finished line, latest character first, without the carriage return of its line end. -/
  lineEnd : List Char → List Char
    | '\r' :: begun => begun
    | begun => begun

end GuardedLisp
