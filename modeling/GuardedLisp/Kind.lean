/-!
# Kinds of values and declared datatypes

Every value has a `Kind`, which error messages name.  A slot may be declared with a `Datatype`.  A
datatype admits the values of one kind, except that a procedure may also be a builtin operation.
-/

namespace GuardedLisp

/-- The kinds of values. -/
inductive Kind where
  | nil
  | symbol
  | integer
  | string
  | bool
  | pair
  | procedure
  | transformer
  | builtin
  | classObject
deriving DecidableEq, Repr

/-- The name of a kind in messages. -/
def Kind.name : Kind → String
  | .nil => "nil"
  | .symbol => "symbol"
  | .integer => "integer"
  | .string => "string"
  | .bool => "bool"
  | .pair => "pair"
  | .procedure => "procedure"
  | .transformer => "macro"
  | .builtin => "builtin"
  | .classObject => "class"

/-- The types that a slot may be declared with. -/
inductive Datatype where
  | integer
  | string
  | bool
  | symbol
  | pair
  | nil
  | procedure
  | transformer
  | classObject
deriving DecidableEq, Repr

namespace Datatype

/-- All datatypes. -/
def all : List Datatype :=
  [integer, string, bool, symbol, pair, nil, procedure, transformer, classObject]

/-- The kind that a datatype is named for. -/
def kind : Datatype → Kind
  | integer => .integer
  | string => .string
  | bool => .bool
  | symbol => .symbol
  | pair => .pair
  | nil => .nil
  | procedure => .procedure
  | transformer => .transformer
  | classObject => .classObject

/-- A datatype is written as the name of its kind. -/
def name (datatype : Datatype) : String := datatype.kind.name

/-- The datatype that a text names, if it names one. -/
def ofName? (text : String) : Option Datatype := all.find? fun datatype => datatype.name = text

/-- Whether values of a kind may be stored under a datatype. -/
def admits (datatype : Datatype) (kind : Kind) : Bool :=
  kind = datatype.kind || (datatype = procedure && kind = .builtin)

end Datatype

end GuardedLisp
