import GuardedLisp.Value.Basic

/-!
# The text of a value

Values are shown as they are written: strings in quotes, chains of pairs in brackets with a dot
before a tail that is not the end of a list.  What cannot be written is shown as a mark with its
name.  A second text names the kind of every part of a value, for inspection.
-/

namespace GuardedLisp

namespace Quoted

/-- How a character is written in a string. -/
def escape (c : Char) : List Char :=
  if c = '"' then ['\\', '"']
  else if c = '\\' then ['\\', '\\']
  else if c = '\n' then ['\\', 'n']
  else if c = '\t' then ['\\', 't']
  else if c = '\r' then ['\\', 'r']
  else [c]

/-- A string in quotes. -/
def text (s : String) : String :=
  "\"" ++ String.ofList (s.toList.flatMap escape) ++ "\""

end Quoted

namespace Value

/-- The text of a value that is not a pair. -/
def atomText : Value → String
  | nil => "nil"
  | symbol name => name.name
  | integer n => toString n.toInt
  | string _ s => Quoted.text s
  | bool true => "true"
  | bool false => "false"
  | pair _ _ _ => "()"
  | closure _ .function _ _ _ => "#<lambda>"
  | closure _ .transformer _ _ _ => "#<macro>"
  | builtin op => "#<builtin:" ++ op.name ++ ">"
  | classObject id => "#<class:" ++ toString id ++ ">"

/-- Adds a value, or what is left of a list after the first element, to what has been written.
Every part is added at the end, so a long value is written in one pass. -/
def writeAfter (written : String) (asTail : Bool) : Value → String
  | pair _ first rest =>
    rest.writeAfter (first.writeAfter (written ++ if asTail then " " else "(") false) true
  | nil => written ++ if asTail then ")" else "nil"
  | v => if asTail then written ++ " . " ++ v.atomText ++ ")" else written ++ v.atomText

/-- Writes a value, or what is left of a list after the first element. -/
def write (asTail : Bool) (v : Value) : String := v.writeAfter "" asTail

/-- The text of a value. -/
def text (v : Value) : String := v.write false

/-- What has been written before stays as it is. -/
theorem writeAfter_eq (written : String) (asTail : Bool) (v : Value) :
    v.writeAfter written asTail = written ++ v.write asTail := by
  unfold write
  induction v generalizing written asTail with
  | pair address first rest ihFirst ihRest =>
    simp only [writeAfter]
    rw [ihRest, ihFirst, ihRest (first.writeAfter _ _), ihFirst ("" ++ _)]
    simp [String.append_assoc]
  | _ => cases asTail <;> simp [writeAfter, String.append_assoc]

/-- A pair is written as its first part followed by the rest as a tail. -/
theorem write_pair (asTail : Bool) (address : Address) (first rest : Value) :
    (pair address first rest).write asTail =
      (if asTail then " " else "(") ++ first.write false ++ rest.write true := by
  rw [write, writeAfter, writeAfter_eq, writeAfter_eq]
  simp [String.append_assoc]

/-- What the language's own output operation prints: a string without its quotes, and any other
value as it is shown. -/
def displayed : Value → String
  | string _ s => s
  | v => v.text

end Value

/-- The text of a symbol for inspection. -/
def Symbol.inspect (name : Symbol) : String := "Symbol(" ++ name.name ++ ")"

/-- The text of parameters for inspection. -/
def Params.inspect (params : Params) : String :=
  "Params \x7b fixed: [" ++ ", ".intercalate (params.fixed.map Symbol.inspect) ++ "], rest: " ++
    (match params.rest with | some name => "Some(" ++ name.inspect ++ ")" | none => "None") ++
    " \x7d"

/-- The text of a kind of closure for inspection. -/
def ClosureKind.inspect : ClosureKind → String
  | .function => "Function"
  | .transformer => "Macro"

/-- The text for inspection of a value that is not a pair. -/
def Value.atomInspect : Value → String
  | nil => "Nil"
  | symbol name => name.inspect
  | integer n => "Integer(" ++ toString n.toInt ++ ")"
  | string _ s => "String(" ++ Quoted.text s ++ ")"
  | bool true => "Bool(true)"
  | bool false => "Bool(false)"
  | pair _ _ _ => "Pair()"
  | closure _ kind params _ _ => "Lambda(" ++ kind.inspect ++ ", " ++ params.inspect ++ ")"
  | builtin op => "Builtin(" ++ op.name ++ ")"
  | classObject id => "Class(" ++ toString id ++ ")"

/-- Adds a value for inspection to what has been written. -/
def Value.inspectAfter (written : String) : Value → String
  | pair _ first rest =>
    rest.inspectAfter (first.inspectAfter (written ++ "Pair(") ++ ", ") ++ ")"
  | v => written ++ v.atomInspect

/-- The text of a value for inspection, which names the kind of every part. -/
def Value.inspect (v : Value) : String := v.inspectAfter ""

end GuardedLisp
