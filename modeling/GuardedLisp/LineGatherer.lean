import GuardedLisp.WhiteSpace

/-!
# Gathering lines

Someone who types an expression over several lines wants it to be read when its last bracket is
closed.  A `LineGatherer` keeps lines until the brackets outside strings and comments balance, and
then releases them as one text.  A string may go on over a line end, a comment may not.
-/

namespace GuardedLisp

/-- What a character of a line stands in. -/
inductive LineMode where
  | code
  | string
  /-- After a backslash in a string. -/
  | escape
  | comment
deriving DecidableEq, Repr

namespace LineMode

/-- What the character after `c` stands in. -/
def next : LineMode → Char → LineMode
  | code, c => if c = '"' then string else if c = ';' then comment else code
  | string, c => if c = '\\' then escape else if c = '"' then code else string
  | escape, _ => string
  | comment, _ => comment

/-- What a character adds to the number of open brackets. -/
def weight : LineMode → Char → Int
  | code, c => if c = '(' then 1 else if c = ')' then -1 else 0
  | _, _ => 0

/-- What a line ends in, and what it adds to the number of open brackets. -/
def scan (mode : LineMode) (line : List Char) : LineMode × Int :=
  line.foldl (fun (mode, balance) c => (mode.next c, balance + mode.weight c)) (mode, 0)

/-- Whether a string goes on after the end of a line. -/
def isOpen : LineMode → Bool
  | string | escape => true
  | code | comment => false

end LineMode

/-- The lines that have been kept, as one text, with the number of brackets and the string that
are open in it. -/
structure LineGatherer where
  buffer : List Char := []
  depth : Int := 0
  inString : Bool := false
deriving DecidableEq, Repr

namespace LineGatherer

/-- Takes a line, and releases the text that it completes. -/
def push (g : LineGatherer) (line : List Char) : Option (List Char) × LineGatherer :=
  let buffer := (if g.buffer.isEmpty then [] else g.buffer ++ ['\n']) ++ line
  let (mode, balance) := LineMode.scan (if g.inString then .string else .code) line
  let depth := g.depth + balance
  if 0 < depth ∨ mode.isOpen then (none, ⟨buffer, depth, mode.isOpen⟩)
  else if buffer.all isWhiteSpace then (none, {})
  else (some buffer, {})

/-- Whether lines are kept. -/
def isPending (g : LineGatherer) : Bool := !g.buffer.isEmpty

end LineGatherer

end GuardedLisp
