import GuardedLisp.Arity
import GuardedLisp.Builtin
import GuardedLisp.Kind
import GuardedLisp.ParseError

/-!
# Errors of evaluation

An error is a cause with what its message names.  Names, values and expressions are kept as the
text that shows them, since a report is all that an error is for.

A type error or an overflow also names the application that raised it.  `Error.during` adds it on
the way out, and an error that has one keeps it, so the innermost application is named.
-/

namespace GuardedLisp

/-- What a permission, or a table that is closed to changes, forbids. -/
inductive Denial where
  | define
  | write
  | read
  | chmod
deriving DecidableEq, Repr

/-- The wording of a denial for one name. -/
def Denial.message (denial : Denial) (name : String) : String :=
  match denial with
  | .define => "cannot define " ++ name ++ ": table is finalised"
  | .write => "cannot write " ++ name
  | .read => "cannot read " ++ name
  | .chmod => "cannot chmod " ++ name ++ ": table is finalised"

/-- What an unevaluated symbol in a class form stands for. -/
inductive LiteralRole where
  | slotName
  | datatype
  | permissionFlag
deriving DecidableEq, Repr

/-- How messages put a role. -/
def LiteralRole.text : LiteralRole → String
  | .slotName => "slot name"
  | .datatype => "datatype"
  | .permissionFlag => "permission flag"

/-- What is wrong with the shape of a form. -/
inductive FormFault where
  | improperList (shown : String)
  | assignedName
  | definedName (shown : String)
  | definition
  | unquoteOutside
  | splicing (shown : String)
  | parameter (shown : String)
  | parameterList (shown : String)
  | duplicateParameter (name : String)
  | literal (role : LiteralRole) (shown : String)
  | unknownDatatype (text : String)
  | unknownFlag (text : String)
deriving DecidableEq, Repr

/-- The wording of a fault of shape. -/
def FormFault.message : FormFault → String
  | improperList shown => "expected a proper list, got " ++ shown
  | assignedName => "set! requires a symbol"
  | definedName shown => "define requires a symbol name, got " ++ shown
  | definition => "define requires a symbol or a (name params...) signature"
  | unquoteOutside => "unquote is only valid inside quasiquote"
  | splicing shown => "unquote-splicing is not supported: " ++ shown
  | parameter shown => "parameters must be symbols, got " ++ shown
  | parameterList shown => "invalid parameter list: " ++ shown
  | duplicateParameter name => "duplicate parameter name: " ++ name
  | literal role shown => role.text ++ " must be a symbol, got " ++ shown
  | unknownDatatype text => "unknown datatype: " ++ text
  | unknownFlag text => "unknown permission flag: " ++ text

/-- Why a value cannot be called. -/
inductive CallFault where
  | value (shown : String) (kind : Kind)
  /-- A slot of a class holds a value that takes no arguments, and there were some. -/
  | slot (name : String) (classId : Nat) (shown : String) (kind : Kind)
deriving DecidableEq, Repr

/-- The wording of a fault of calling. -/
def CallFault.message : CallFault → String
  | value shown kind => shown ++ " (" ++ kind.name ++ ") cannot be applied"
  | slot name classId shown kind =>
    "slot " ++ name ++ " of class " ++ toString classId ++ " holds " ++ shown ++ " (" ++
      kind.name ++ "), which takes no arguments"

/-- How the kind of a value is wrong. -/
inductive TypeFault where
  | mismatch (expected got : Kind)
  | pairRequired (part : PairPart) (got : Kind)
  | declared (slot : String) (datatype : Datatype) (got : Kind)
  | selector (got : Kind)
  | classRequired (shown : String) (got : Kind)
deriving DecidableEq, Repr

/-- The wording of a fault of kind. -/
def TypeFault.message : TypeFault → String
  | mismatch expected got => "expected " ++ expected.name ++ ", got " ++ got.name
  | pairRequired part got => part.name ++ " requires a pair, got " ++ got.name
  | declared slot datatype got =>
    slot ++ " holds " ++ datatype.name ++ ", got " ++ got.name
  | selector got => "slot selector must evaluate to a symbol, got " ++ got.name
  | classRequired shown got => "expected a class, got " ++ shown ++ " (" ++ got.name ++ ")"

/-- Why a text cannot be read or a term has no value. -/
inductive Error where
  | parse (report : ParseError)
  | missingSymbol (name : String)
  | alreadyDefined (name : String)
  | denied (denial : Denial) (name : String)
  | unsetValue (name : String)
  | arity (expected : Arity) (got : Nat) (expression : Option String)
  | form (fault : FormFault)
  | notCallable (fault : CallFault)
  /-- A value of the wrong kind; the application that raised the error is added later. -/
  | type (fault : TypeFault) (application : Option String)
  /-- A result that has no 64-bit form; the application that raised the error is added later. -/
  | overflow (operation : Arithmetic) (application : Option String)
  | tooDeep (limit : Nat)
deriving DecidableEq, Repr

namespace Error

/-- What stands between the cause of an error and the application that raised it. -/
def contextMark : String := "\n  Context: "

/-- The application that raised an error, as messages put it. -/
def applicationText : Option String → String
  | some shown => contextMark ++ "while evaluating: " ++ shown
  | none => ""

/-- The wording of a cause, without the word for its class. -/
def detail : Error → String
  | parse report => report.render
  | missingSymbol name => name ++ " is not defined"
  | alreadyDefined name => name ++ " is already defined"
  | denied denial name => denial.message name
  | unsetValue name => name ++ " has no value"
  | arity expected got expression =>
    (match expression with | some shown => "expression " ++ shown ++ ": " | none => "") ++
      "expected " ++ expected.text ++ " arguments, got " ++ toString got
  | form fault => fault.message
  | notCallable fault => fault.message
  | type fault application => fault.message ++ applicationText application
  | overflow operation application =>
    "Integer overflow in " ++ operation.noun ++ applicationText application
  | tooDeep limit => "evaluation depth limit exceeded (max: " ++ toString limit ++ ")"

/-- The word that messages open with. -/
def label : Error → String
  | parse _ => "ParseError"
  | missingSymbol _ => "MissingSym"
  | alreadyDefined _ => "AlreadyDefined"
  | denied _ _ => "InvalidPermission"
  | unsetValue _ => "UnsetValue"
  | arity _ _ _ => "InvalidArity"
  | form _ => "InvalidForm"
  | notCallable _ => "NotCallable"
  | type _ _ => "TypeError"
  | overflow _ _ => "EvaluationError"
  | tooDeep _ => "RecursionTooDeep"

/-- The message of an error. -/
def message (e : Error) : String := e.label ++ ": " ++ e.detail

/-- Whether `part` occurs in a text. -/
def occursIn (part : List Char) : List Char → Bool
  | [] => part.isEmpty
  | c :: text => part.isPrefixOf (c :: text) || occursIn part text

/-- Whether a wording already has the mark that comes before an application. -/
def isMarked (detail : String) : Bool := occursIn contextMark.toList detail.toList

/-- Names the application that an error came out of, if it is a type error or an overflow whose
wording has no such mark yet.  Other errors name what is wrong by themselves.  The text of the
application is made only if it is named: a value whose parts are shared may have a text much longer
than the value is large. -/
def during (application : Thunk String) : Error → Error
  | type fault none =>
    if isMarked fault.message then type fault none else type fault (some application.get)
  | overflow operation none => overflow operation (some application.get)
  | e => e

end Error

/-- Refuses a number of arguments that an operation does not take. -/
def Arity.check (arity : Arity) (got : Nat) : Except Error Unit :=
  if arity.admits got then .ok () else .error (.arity arity got none)

end GuardedLisp
