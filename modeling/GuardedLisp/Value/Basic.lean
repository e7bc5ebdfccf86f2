import GuardedLisp.Builtin
import GuardedLisp.Error
import GuardedLisp.Kind
import GuardedLisp.Symbol

/-!
# Values

The values of the language, which are its terms too.  A value is a tree of its contents.  Pairs,
strings and closures also carry the address at which they were made, so that two of them can be
told apart although they are built alike; a class is named by its number, and all that may change
about it is kept elsewhere.
-/

namespace GuardedLisp

/-- Numbers the strings, pairs and closures that have been made. -/
abbrev Address := Nat

/-- Numbers the scope frames. -/
abbrev FrameId := Nat

/-- Numbers the classes. -/
abbrev ClassId := Nat

/-- A place in the forest of frames: a frame and the frames around it, nearest first. -/
structure Scope where
  frame : FrameId
  outer : List FrameId
deriving DecidableEq, Repr, Inhabited

/-- The frames in which a name is looked up, nearest first. -/
def Scope.chain (scope : Scope) : List FrameId := scope.frame :: scope.outer

/-- What a call does with its arguments and its result. -/
inductive ClosureKind where
  /-- The arguments are evaluated and the result is the value of the call. -/
  | function
  /-- The arguments are taken as terms and the result is evaluated in place of the call. -/
  | transformer
deriving DecidableEq, Repr

/-- The parameters of a closure: those that take one argument each, and one that may take all
arguments that are left. -/
structure Params where
  fixed : List Symbol
  rest : Option Symbol
deriving DecidableEq, Repr

/-- The values of the language. -/
inductive Value where
  | nil
  | symbol (name : Symbol)
  | integer (value : Int64)
  | string (address : Address) (text : String)
  | bool (value : Bool)
  | pair (address : Address) (first rest : Value)
  /-- A procedure with the scope in which it was made. -/
  | closure (address : Address) (kind : ClosureKind) (params : Params) (body : Value)
      (scope : Scope)
  | builtin (operation : Builtin)
  | classObject (id : ClassId)
deriving DecidableEq, Repr, Inhabited

namespace Value

/-- The kind of a value. -/
def kind : Value → Kind
  | nil => .nil
  | symbol _ => .symbol
  | integer _ => .integer
  | string _ _ => .string
  | bool _ => .bool
  | pair _ _ _ => .pair
  | closure _ .function _ _ _ => .procedure
  | closure _ .transformer _ _ _ => .transformer
  | builtin _ => .builtin
  | classObject _ => .classObject

/-- Whether a value is the end of a list. -/
def isNil : Value → Bool
  | nil => true
  | _ => false

/-- The symbol that a value is, if it is one. -/
def symbol? : Value → Option Symbol
  | symbol name => some name
  | _ => none

/-- The integer that a value has to be. -/
def toInteger : Value → Except Error Int64
  | integer n => .ok n
  | v => .error (.type (.mismatch .integer v.kind) none)

/-- The truth value that a value has to be. -/
def toBool : Value → Except Error Bool
  | bool b => .ok b
  | v => .error (.type (.mismatch .bool v.kind) none)

/-- The symbol that a value has to be. -/
def toSymbol : Value → Except Error Symbol
  | symbol name => .ok name
  | v => .error (.type (.mismatch .symbol v.kind) none)

end Value

end GuardedLisp
