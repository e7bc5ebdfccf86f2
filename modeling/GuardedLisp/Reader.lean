import GuardedLisp.Datum
import GuardedLisp.ParseError

/-!
# The reader

A text is read from left to right, one character at a time, by a machine that keeps the forms it
has finished and a stack of the expressions that are still open.  Once a fault is met the machine
stands still, so a fault never depends on what follows it.

Where an atom is a symbol, the reader interns its text and goes on with the symbol that it gets.
Symbols come from a symbol table, but all that the reader asks for is a symbol for a text.

## Main definitions

* `Interns`: what symbols can be taken from
* `State`, `State.step`, `State.run`: the machine and what characters do to it
* `State.finish`: what the end of the text does to it
* `read`: the forms of a text, or the report of its first fault
* `readOne`: the one form of a text that must hold exactly one

## Grammar

```
program ::= expr*
expr    ::= atom | string | mark expr | "(" ")" | "(" expr+ ")" | "(" expr+ "." expr ")"
mark    ::= "'" | "`" | "," | ",@"
```

Between tokens there may be blanks and comments.  A comment runs from `;` to the end of its line
and holds no carriage return but one that belongs to the line end.
-/

namespace GuardedLisp

namespace Reader

/-- What symbols can be taken from. -/
class Interns (τ : Type) where
  /-- The symbol of a text, and what symbols are taken from then on. -/
  intern : τ → String → Symbol × τ

instance {ι : Type} [Interner ι] : Interns (SymbolTable ι) := ⟨SymbolTable.intern⟩

/-- How many expressions may be open at once. -/
def maxDepth : Nat := 128

/-- Why a text cannot be read. -/
inductive Cause where
  /-- More than `maxDepth` expressions are open. -/
  | tooDeep
  /-- The text ends inside an expression. -/
  | endOfText
  /-- An atom is written as an integer that has no 64-bit form. -/
  | integerRange
  /-- A backslash in a string is followed by a character that it cannot escape. -/
  | unknownEscape
  /-- A character stands where no token can start. -/
  | misplaced
  /-- Text follows the one form that was asked for. -/
  | trailing
deriving DecidableEq, Repr

/-- A fault and the byte offset where it shows. -/
structure Fault where
  cause : Cause
  offset : Nat
deriving DecidableEq, Repr

/-- An expression that has been opened and not yet closed.  Elements are kept latest first. -/
inductive Open where
  /-- A list that may still get elements. -/
  | list (items : List Datum)
  /-- A list whose dot has been read and whose tail has not. -/
  | dotted (items : List Datum)
  /-- A list with its tail, of which only the bracket is missing. -/
  | closing (items : List Datum) (tail : Datum)
  /-- A quotation mark that waits for its operand. -/
  | marked (keyword : Symbol)
deriving DecidableEq, Repr

/-- How many forms a text is expected to hold. -/
inductive Goal where
  | one
  | all
deriving DecidableEq, Repr

/-- What the machine is in the middle of.  Characters are kept latest first. -/
inductive Mode where
  /-- Between two tokens. -/
  | between
  /-- In an atom that starts at a given offset. -/
  | atom (start : Nat) (chars : List Char)
  /-- In a string. -/
  | string (chars : List Char)
  /-- In a string, after the backslash at a given offset. -/
  | escape (start : Nat) (chars : List Char)
  /-- After a comma, which an at sign may follow. -/
  | comma
  /-- In a comment that starts at a given offset. -/
  | comment (start : Nat)
  /-- In a comment, after a carriage return, which a line feed has to follow. -/
  | commentReturn (start : Nat)
  /-- At rest after a fault. -/
  | failed (fault : Fault)
deriving DecidableEq, Repr

/-- The machine: what it is to find, what it has met and finished, and where it stands. -/
structure State (τ : Type := SymbolTable) [Interns τ] where
  goal : Goal
  /-- What symbols are taken from. -/
  symbols : τ
  /-- The finished forms, latest first. -/
  forms : List Datum
  /-- The open expressions, innermost first. -/
  pending : List Open
  mode : Mode
  /-- The byte offset of the next character. -/
  offset : Nat
deriving Repr

/-- Space, tab, carriage return and line feed separate tokens. -/
def isBlank (c : Char) : Bool := c = ' ' || c = '\t' || c = '\r' || c = '\n'

/-- The character that a backslash and `c` stand for in a string. -/
def unescape? (c : Char) : Option Char :=
  if c = 'n' then some '\n'
  else if c = 't' then some '\t'
  else if c = 'r' then some '\r'
  else if c = '\\' then some '\\'
  else if c = '"' then some '"'
  else none

/-- Hands a finished datum to the innermost open expression.  A datum that completes marks
completes them too; one that no expression waits for is a form. -/
def place : List Open → Datum → List Open × Option Datum
  | [], datum => ([], some datum)
  | .list items :: outer, datum => (.list (datum :: items) :: outer, none)
  | .dotted items :: outer, datum => (.closing items datum :: outer, none)
  | .closing items tail :: outer, _ => (.closing items tail :: outer, none)
  | .marked keyword :: outer, datum => place outer (Datum.marked keyword datum)

namespace State

variable {τ : Type} [Interns τ]

/-- A machine before the first character. -/
def initial (goal : Goal) (symbols : τ) : State τ :=
  ⟨goal, symbols, [], [], .between, 0⟩

/-- The machine at rest after a fault. -/
def fail (s : State τ) (cause : Cause) (offset : Nat) : State τ :=
  { s with mode := .failed ⟨cause, offset⟩ }

/-- The machine after a finished datum. -/
def supply (s : State τ) (datum : Datum) : State τ :=
  let (pending, form) := place s.pending datum
  { s with forms := form.toList ++ s.forms, pending, mode := .between }

/-- Whether the machine has found the only form that it is to find. -/
def isSated (s : State τ) : Bool := s.goal = .one && s.pending.isEmpty && !s.forms.isEmpty

/-- Goes on with `next` if an expression may start at `offset`. -/
def starting (s : State τ) (offset : Nat) (next : State τ) : State τ :=
  if s.isSated then s.fail .trailing offset
  else match s.pending with
    | .closing _ _ :: _ => s.fail .misplaced offset
    | _ => if maxDepth ≤ s.pending.length then s.fail .tooDeep offset else next

/-- Refuses what stands at `offset`, where no token starts. -/
def refuse (s : State τ) (offset : Nat) : State τ := s.starting offset (s.fail .misplaced offset)

/-- Opens an expression for the operand of a mark that ends at `offset`. -/
def mark (s : State τ) (keyword : Symbol) (offset : Nat) : State τ :=
  let s := { s with pending := .marked keyword :: s.pending, mode := .between }
  if maxDepth ≤ s.pending.length then s.fail .tooDeep offset else s

/-- Closes the innermost list with the bracket at `offset`. -/
def close (s : State τ) (offset : Nat) : State τ :=
  match s.pending with
  | .list items :: outer => { s with pending := outer }.supply (Datum.chain items.reverse .nil)
  | .closing items tail :: outer =>
    { s with pending := outer }.supply (Datum.chain items.reverse tail)
  | _ => s.refuse offset

/-- Reads the dot at `offset`, which only a list with elements can hold. -/
def dot (s : State τ) (offset : Nat) : State τ :=
  match s.pending with
  | .list (item :: items) :: outer => { s with pending := .dotted (item :: items) :: outer }
  | _ => s.refuse offset

/-- Reads a character between two tokens. -/
def between (s : State τ) (offset : Nat) (c : Char) : State τ :=
  if isBlank c then s
  else if c = ';' then { s with mode := .comment offset }
  else if c = ')' then s.close offset
  else if c = '.' then s.dot offset
  else s.starting offset <|
    if c = '(' then { s with pending := .list [] :: s.pending }
    else if c = '"' then { s with mode := .string [] }
    else if c = '\x27' then s.mark .quote (offset + 1)
    else if c = '\x60' then s.mark .quasiquote (offset + 1)
    else if c = ',' then { s with mode := .comma }
    else if Atom.isAtomChar c then { s with mode := .atom offset [c] }
    else s.fail .misplaced offset

/-- Ends an atom: it is an integer if it is written as one, and otherwise a symbol. -/
def endAtom (s : State τ) (start : Nat) (chars : List Char) : State τ :=
  match Atom.integer? chars.reverse with
  | some n => match word? n with
    | some word => s.supply (.integer word)
    | none => s.fail .integerRange start
  | none =>
    let interned := Interns.intern s.symbols (String.ofList chars.reverse)
    { s with symbols := interned.2 }.supply (.symbol interned.1)

/-- Reads a character between two tokens unless a fault has been met. -/
def resume (s : State τ) (c : Char) : State τ :=
  match s.mode with
  | .failed _ => s
  | _ => s.between s.offset c

/-- What a character does to the machine, its place aside. -/
def consume (s : State τ) (c : Char) : State τ :=
  match s.mode with
  | .between => s.between s.offset c
  | .atom start chars =>
    if Atom.isAtomChar c then { s with mode := .atom start (c :: chars) }
    else (s.endAtom start chars).resume c
  | .string chars =>
    if c = '"' then s.supply (.string (String.ofList chars.reverse))
    else if c = '\\' then { s with mode := .escape s.offset chars }
    else { s with mode := .string (c :: chars) }
  | .escape start chars =>
    match unescape? c with
    | some d => { s with mode := .string (d :: chars) }
    | none => s.fail .unknownEscape start
  | .comma =>
    if c = '@' then s.mark .unquoteSplicing (s.offset + 1)
    else (s.mark .unquote s.offset).resume c
  | .comment start =>
    if c = '\n' then { s with mode := .between }
    else if c = '\r' then { s with mode := .commentReturn start }
    else s
  | .commentReturn start =>
    if c = '\n' then { s with mode := .between } else s.refuse start
  | .failed _ => s

/-- Reads one character. -/
def step (s : State τ) (c : Char) : State τ :=
  { s.consume c with offset := s.offset + c.utf8Size }

/-- Reads the characters of a text. -/
def run (s : State τ) (text : List Char) : State τ := text.foldl step s

@[simp] theorem run_nil (s : State τ) : s.run [] = s := rfl

@[simp] theorem run_cons (s : State τ) (c : Char) (text : List Char) :
    s.run (c :: text) = (s.step c).run text := rfl

theorem run_append (s : State τ) (first second : List Char) :
    s.run (first ++ second) = (s.run first).run second := by
  simp [run, List.foldl_append]

/-- After a fault no character does anything. -/
theorem mode_run_of_failed {s : State τ} {fault : Fault} (h : s.mode = .failed fault)
    (text : List Char) : (s.run text).mode = .failed fault := by
  induction text generalizing s with
  | nil => exact h
  | cons c text ih => exact ih (by simp [step, consume, h])

/-- Checks at the end of the text that nothing is open and that the goal is met. -/
def settle (s : State τ) : State τ :=
  match s.mode with
  | .failed _ => s
  | _ =>
    if s.pending.isEmpty && (s.goal = .all || !s.forms.isEmpty) then { s with mode := .between }
    else s.fail .endOfText s.offset

/-- What the end of the text does to the machine. -/
def finish (s : State τ) : State τ :=
  match s.mode with
  | .atom start chars => (s.endAtom start chars).settle
  | .comma => (s.mark .unquote s.offset).settle
  | .string _ | .escape _ _ => s.fail .endOfText s.offset
  | .commentReturn start => s.refuse start
  | .between | .comment _ => s.settle
  | .failed _ => s

/-- The forms that were found, in order, or the fault that was met. -/
def result (s : State τ) : Except Fault (List Datum) :=
  match s.mode with
  | .failed fault => .error fault
  | _ => .ok s.forms.reverse

end State

/-- The kind of report that a cause gives. -/
def Cause.kind : Cause → ParseErrorKind
  | .tooDeep => .tooDeeplyNested
  | .endOfText => .incomplete
  | .integerRange => .implementationLimit
  | .unknownEscape | .misplaced => .invalidSyntax
  | .trailing => .trailingContent

/-- The wording of a fault at `offset` with the characters of the text from there on. -/
def Cause.message (cause : Cause) (offset : Nat) (rest : List Char) : String :=
  match cause with
  | .tooDeep => "Expression too deeply nested (max depth: " ++ toString maxDepth ++ ")"
  | .endOfText => "Unexpected end of input"
  | .integerRange => "Integer literal out of range at position " ++ toString offset
  | .unknownEscape => "Unknown escape sequence at position " ++ toString offset
  | .misplaced => "Invalid syntax near '" ++ String.ofList (rest.take 10) ++ "'"
  | .trailing => "Unexpected remaining input at position " ++ toString offset

/-- The report of a fault in a text. -/
def Fault.report (fault : Fault) (text : List Char) : ParseError :=
  let rest := text.drop (Snippet.charsBefore text fault.offset)
  .within fault.cause.kind (fault.cause.message fault.offset rest) text fault.offset
    (rest.head?.map String.singleton)

section

variable {τ : Type} [Interns τ]

/-- The machine at the end of a text. -/
def scan (goal : Goal) (text : List Char) (symbols : τ) : State τ :=
  ((State.initial goal symbols).run text).finish

/-- The forms of a text or the report of its first fault, and the symbols that are known once it
has been read as far as that. -/
def read (goal : Goal) (text : String) (symbols : τ) :
    Except ParseError (List Datum) × τ :=
  let s := scan goal text.toList symbols
  (s.result.mapError fun fault => fault.report text.toList, s.symbols)

end

section

variable {ι : Type} [Interner ι]

/-- All forms of a text. -/
def readAll (text : String) (symbols : SymbolTable ι) :
    Except ParseError (List Datum) × SymbolTable ι :=
  read .all text symbols

/-- The form of a text that holds exactly one. -/
def readOne (text : String) (symbols : SymbolTable ι) :
    Except ParseError Datum × SymbolTable ι :=
  let (forms, symbols) := read .one text symbols
  (forms.map fun forms => forms.headD .nil, symbols)

end

end Reader

end GuardedLisp
