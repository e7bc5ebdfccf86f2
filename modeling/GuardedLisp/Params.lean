import GuardedLisp.Value.Text

/-!
# Parameter lists

The parameters of a closure are written as a list of symbols, as a chain of symbols whose tail is
a symbol that takes all further arguments, or as such a symbol alone.  No name occurs twice.
-/

namespace GuardedLisp

namespace Params

/-- Reads what is left of a parameter list after the given fixed parameters. -/
def ofTermAfter (fixed : List Symbol) : Value → Except Error Params
  | .nil => .ok ⟨fixed, none⟩
  | .symbol name =>
    if name ∈ fixed then .error (.form (.duplicateParameter name.name))
    else .ok ⟨fixed, some name⟩
  | .pair _ (.symbol name) rest =>
    if name ∈ fixed then .error (.form (.duplicateParameter name.name))
    else ofTermAfter (fixed ++ [name]) rest
  | .pair _ first _ => .error (.form (.parameter first.text))
  | v => .error (.form (.parameterList v.text))

/-- The parameters that a term stands for. -/
def ofTerm (term : Value) : Except Error Params := ofTermAfter [] term

/-- How many arguments the parameters take. -/
def arity (params : Params) : Arity :=
  match params.rest with
  | some _ => .atLeast params.fixed.length
  | none => .exactly params.fixed.length

end Params

end GuardedLisp
