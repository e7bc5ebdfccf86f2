import GuardedLisp.Arity

/-!
# Builtin operations

The operations that a fresh interpreter binds.  A special form gets the terms of its arguments and
checks their number itself.  A primitive gets their values, and their number is fixed.
-/

namespace GuardedLisp

/-- The operations that take their arguments unevaluated. -/
inductive SpecialForm where
  | quote
  | assign
  | define
  | branch
  | lambda
  | begin
  | newClass
  | classDefine
  | classSet
  | classChmod
  | classFinalize
  | transformer
  | quasiquote
  | unquote
deriving DecidableEq, Repr

/-- The arithmetic operations. -/
inductive Arithmetic where
  | add
  | multiply
  | subtract
deriving DecidableEq, Repr

/-- The comparisons of integers. -/
inductive Comparison where
  | less
  | greater
  | equal
  | atMost
  | atLeast
deriving DecidableEq, Repr

/-- The two parts of a pair. -/
inductive PairPart where
  | first
  | rest
deriving DecidableEq, Repr

/-- The operations on values. -/
inductive Primitive where
  | display
  | newline
  | cons
  | part (part : PairPart)
  /-- Whether two values are one and the same. -/
  | same
  /-- Whether two values are built alike. -/
  | alike
  | arithmetic (operation : Arithmetic)
  | comparison (operation : Comparison)
deriving DecidableEq, Repr

/-- A builtin operation. -/
inductive Builtin where
  | form (form : SpecialForm)
  | primitive (primitive : Primitive)
deriving DecidableEq, Repr

/-- The name that a special form is bound to. -/
def SpecialForm.name : SpecialForm → String
  | quote => "quote"
  | assign => "set!"
  | define => "define"
  | branch => "if"
  | lambda => "lambda"
  | begin => "begin"
  | newClass => "class"
  | classDefine => "class-define!"
  | classSet => "class-set!"
  | classChmod => "class-chmod!"
  | classFinalize => "class-finalize!"
  | transformer => "mac"
  | quasiquote => "quasiquote"
  | unquote => "unquote"

/-- The name that takes a part of a pair. -/
def PairPart.name : PairPart → String
  | first => "car"
  | rest => "cdr"

/-- The name of an operation in the message about its overflow. -/
def Arithmetic.noun : Arithmetic → String
  | add => "addition"
  | multiply => "multiplication"
  | subtract => "subtraction"

namespace Primitive

/-- The name that a primitive is bound to. -/
def name : Primitive → String
  | display => "display"
  | newline => "newline"
  | cons => "cons"
  | .part which => which.name
  | same => "is?"
  | alike => "equal?"
  | arithmetic .add => "+"
  | arithmetic .multiply => "*"
  | arithmetic .subtract => "-"
  | comparison .less => "<"
  | comparison .greater => ">"
  | comparison .equal => "="
  | comparison .atMost => "<="
  | comparison .atLeast => ">="

/-- How many values a primitive takes. -/
def argumentCount : Primitive → Nat
  | newline => 0
  | display | part _ => 1
  | cons | same | alike | arithmetic _ | comparison _ => 2

end Primitive

namespace Builtin

/-- The name that an operation is bound to. -/
def name : Builtin → String
  | form f => f.name
  | primitive p => p.name

/-- The number of arguments that is checked before an operation is called.  Special forms check
their own. -/
def arity : Builtin → Arity
  | form _ => .any
  | primitive p => .exactly p.argumentCount

/-- Whether an operation gets its arguments unevaluated. -/
def isForm : Builtin → Bool
  | form _ => true
  | primitive _ => false

/-- All operations in the order in which they are bound. -/
def all : List Builtin :=
  [form .quote, form .assign, form .define, form .branch, form .lambda, form .begin,
    form .newClass, form .classDefine, form .classSet, form .classChmod, form .classFinalize,
    form .transformer, form .quasiquote, form .unquote,
    primitive .display, primitive .newline,
    primitive .cons, primitive (.part .first), primitive (.part .rest),
    primitive .same, primitive .alike,
    primitive (.arithmetic .add), primitive (.arithmetic .multiply),
    primitive (.arithmetic .subtract),
    primitive (.comparison .less), primitive (.comparison .greater),
    primitive (.comparison .equal), primitive (.comparison .atMost),
    primitive (.comparison .atLeast)]

/-- The operation that is bound to a name. -/
def find? (name : String) : Option Builtin := all.find? fun op => op.name = name

end Builtin

end GuardedLisp
