import GuardedLisp.Datum

/-!
# Options

A command line is read from left to right.  An argument that starts with a dash is a switch, and
any other one is the value of the switch before it; a dash alone is a value.  Only files may be
given more than once, and one switch may be followed by many of them.  Reading ends at the switch
that asks for the version, whatever comes after it.

## Main definitions

* `Options`: what a command line asks for
* `Switch.read?`: what an argument that starts with a dash says
* `Options.read`: the options of a command line that is well formed
-/

namespace GuardedLisp

/-- The options that take a value. -/
inductive ValuedOption where
  | load
  | eval
  | limit
  | log
deriving DecidableEq, Repr

namespace ValuedOption

/-- How an option is written. -/
def text : ValuedOption → String
  | load => "--load"
  | eval => "--eval"
  | limit => "--max-depth"
  | log => "--log"

/-- All options that take a value. -/
def all : List ValuedOption := [load, eval, limit, log]

end ValuedOption

/-- What an argument that starts with a dash says. -/
inductive Switch where
  | version
  | noSession
  /-- An option whose value follows. -/
  | valued (option : ValuedOption)
  /-- An option with the value that is written after an equals sign. -/
  | attached (option : ValuedOption) (value : String)
  /-- No option follows. -/
  | last
deriving DecidableEq, Repr

namespace Switch

/-- What an argument says about one option, if it is about that option. -/
def ofOption? (argument : List Char) (option : ValuedOption) : Option Switch :=
  let name := option.text.toList
  if argument = name then some (.valued option)
  else if (name ++ ['=']).isPrefixOf argument then
    some (.attached option (String.ofList (argument.drop (name.length + 1))))
  else none

/-- Reads an argument that starts with a dash.  In a run of letters after a single dash the first
one is enough to ask for the version. -/
def read? (argument : List Char) : Option Switch :=
  if argument = "--".toList then some .last
  else if argument = "--version".toList ∨ "-V".toList.isPrefixOf argument then some .version
  else if argument = "--no-repl".toList then some .noSession
  else ValuedOption.all.findSome? (ofOption? argument)

end Switch

/-- What a command line asks for. -/
structure Options where
  load : List String := []
  eval : Option String := none
  limit : Option Nat := none
  log : Option String := none
  session : Bool := true
  version : Bool := false
deriving DecidableEq, Repr

namespace Options

/-- A number as it is written on the command line, which has to fit in 64 bits. -/
def number? (text : String) : Option Nat := do
  let n ← Atom.decimal? (match text.toList with | '+' :: digits => digits | digits => digits)
  guard (n < UInt64.size)
  return n

/-- Adds an option with its value.  A file has a name, and all other options are given at most
once. -/
def add (options : Options) (value : String) : ValuedOption → Option Options
  | .load =>
    if value.isEmpty then none else some { options with load := options.load ++ [value] }
  | .eval => if options.eval.isSome then none else some { options with eval := some value }
  | .limit =>
    if options.limit.isSome then none
    else (number? value).map fun limit => { options with limit := some limit }
  | .log => if options.log.isSome then none else some { options with log := some value }

/-- What the next argument of a command line may be. -/
inductive Expecting where
  /-- A switch. -/
  | switch
  /-- The value of an option. -/
  | value (option : ValuedOption)
  /-- One more file to load, or a switch. -/
  | moreFiles
deriving DecidableEq, Repr

/-- The option that takes a value at this place, if one does. -/
def Expecting.taker? : Expecting → Option ValuedOption
  | switch => none
  | value option => some option
  | moreFiles => some .load

/-- Whether an option still waits for its value. -/
def Expecting.isWaiting : Expecting → Bool
  | value _ => true
  | _ => false

/-- What may come after the value of an option. -/
def Expecting.afterValue : ValuedOption → Expecting
  | .load => .moreFiles
  | _ => .switch

/-- Whether an argument is a switch and not a value. -/
def isSwitch (argument : String) : Bool :=
  match argument.toList with
  | '-' :: _ :: _ => true
  | _ => false

/-- Reads what is left of a command line. -/
def readFrom (options : Options) (expecting : Expecting) : List String → Option Options
  | [] => if expecting.isWaiting then none else some options
  | argument :: arguments =>
    if isSwitch argument then
      if expecting.isWaiting then none
      else match Switch.read? argument.toList with
        | some .version => some { options with version := true }
        | some .noSession =>
          if options.session then { options with session := false }.readFrom .switch arguments
          else none
        | some (.valued option) => options.readFrom (.value option) arguments
        | some (.attached option value) => do
          (← options.add value option).readFrom .switch arguments
        | some .last => if arguments.isEmpty then some options else none
        | none => none
    else do
      let option ← expecting.taker?
      (← options.add argument option).readFrom (.afterValue option) arguments

/-- Reads a command line, if it is well formed. -/
def read (arguments : List String) : Option Options := readFrom {} .switch arguments

end Options

end GuardedLisp
