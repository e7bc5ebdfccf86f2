import GuardedLisp.CommandLine
import GuardedLisp.Directory

/-!
# The program

Reads the command line, the files that it names and the lines of its input, and prints what
carrying them out shows.
-/

namespace GuardedLisp

/-- Why a file cannot be read, in the words of the program. -/
def readFault : IO.Error → String
  | .noFileOrDirectory .. => PathFault.missing.message
  | .inappropriateType _ 21 _ => PathFault.isDirectory.message
  | .inappropriateType .. => PathFault.notDirectory.message
  | .invalidArgument .. => PathFault.nameTooLong.message
  | .userError _ => "stream did not contain valid UTF-8"
  | e => toString e

/-- The text of a file, or why it cannot be read. -/
def readSource (path : String) : IO (Except String String) := do
  try
    return .ok (← IO.FS.readFile path)
  catch e =>
    return .error (readFault e)

/-- The next line of the input, or nothing at its end. -/
def nextLine (input : IO.FS.Stream) : IO (Option (List Char)) := do
  let line ← input.getLine
  return (inputLines line.toList).head?

/-- Carries on a session with the lines of the input. -/
partial def converse (input output : IO.FS.Stream) (session : Session) : IO Unit := do
  output.putStr session.prompt
  output.flush
  match ← nextLine input with
  | none => output.putStr Session.farewell
  | some line =>
    let reply := session.step line
    output.putStr reply.output
    output.flush
    match reply.session with
    | some session => converse input output session
    | none => return ()

end GuardedLisp

open GuardedLisp

/-- Carries out the command line. -/
def main (arguments : List String) : IO UInt32 := do
  match Options.read arguments with
  | none =>
    IO.eprintln "usage: [--load FILE...] [--eval EXPR] [--max-depth N] [--no-repl]"
    return 2
  | some options =>
    let files ← options.load.mapM fun path => return (path, ← readSource path)
    let content (path : String) : Except String String := (files.lookup path).getD (.error "")
    let (progress, session) := options.start content
    IO.print progress.output
    IO.eprint progress.complaints
    match session with
    | some session => converse (← IO.getStdin) (← IO.getStdout) session
    | none => pure ()
    return if progress.failed then 1 else 0
