/-!
# Errors of the reader

A text that cannot be read is reported with the kind of the fault, a message, the character found
at the place of the fault and the text around it.  Places are byte offsets in the UTF-8 form of
the text; the text around a place is cut in characters.
-/

namespace GuardedLisp

/-- The kinds of fault that a front end may want to tell apart. -/
inductive ParseErrorKind where
  /-- A character or an escape that no continuation can mend. -/
  | invalidSyntax
  /-- The text ended inside an expression. -/
  | incomplete
  /-- Expressions were nested too deeply. -/
  | tooDeeplyNested
  /-- Text followed the one expression that was asked for. -/
  | trailingContent
  /-- An integer has no 64-bit form. -/
  | implementationLimit
deriving DecidableEq, Repr

/-- A report about a text that cannot be read. -/
structure ParseError where
  kind : ParseErrorKind
  message : String
  context : Option String
  found : Option String
deriving DecidableEq, Repr

namespace Snippet

/-- How many characters of a text start before a byte offset. -/
def charsBefore : List Char → Nat → Nat
  | [], _ => 0
  | c :: cs, offset => if offset = 0 then 0 else charsBefore cs (offset - c.utf8Size) + 1

/-- How many characters before the place of a fault are shown. -/
def lead : Nat := 20

/-- How many characters are shown in all. -/
def width : Nat := 100

/-- Stands for text that was cut off. -/
def ellipsis : List Char := ['[', '.', '.', '.', ']']

/-- Keeps a snippet on one line: a line feed is shown as an escape and a carriage return not at
all. -/
def flatten (text : List Char) : List Char :=
  text.flatMap fun c => if c = '\n' then ['\\', 'n'] else if c = '\r' then [] else [c]

/-- Where the snippet around a byte offset starts, in characters. -/
def start (text : List Char) (offset : Nat) : Nat := charsBefore text offset - lead

/-- The characters around a byte offset, with an ellipsis on each side where text was cut off. -/
def around (text : List Char) (offset : Nat) : List Char :=
  let first := start text offset
  let window := (text.drop first).take width
  flatten ((if 0 < first then ellipsis else []) ++ window ++
    if first + window.length < text.length then ellipsis else [])

end Snippet

namespace ParseError

/-- A report that shows nothing of the text. -/
def ofMessage (kind : ParseErrorKind) (message : String) : ParseError :=
  ⟨kind, message, none, none⟩

/-- A report that shows the text around a byte offset. -/
def within (kind : ParseErrorKind) (message : String) (text : List Char) (offset : Nat)
    (found : Option String) : ParseError :=
  ⟨kind, message, some (String.ofList (Snippet.around text offset)), found⟩

/-- The report as it is shown: the message, then the character found and the text around it on
lines of their own. -/
def render (e : ParseError) : String :=
  e.message ++ (match e.found with | some found => "\nFound: " ++ found | none => "") ++
    (match e.context with | some context => "\nContext: " ++ context | none => "")

end ParseError

end GuardedLisp
