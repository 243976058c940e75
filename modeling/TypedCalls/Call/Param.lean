import TypedCalls.Call.Matching
import TypedCalls.Term.Printer

/-!
Declared parameters.
-/

set_option autoImplicit false

namespace TypedCalls

/-- A declared parameter. A quoted one receives its argument unevaluated. -/
structure Param where
  name : String
  type : Term
  arity : Arity
  quoted : Bool

namespace Param

def required (name : String) (type : Term) : Param := ⟨name, type, .required, false⟩

def render (param : Param) : String := param.name ++ param.arity.mark

def formal (param : Param) : Formal := ⟨param.name, param.arity⟩

def repeated? (params : List Param) : Option String :=
  go [] (params.map Param.name)
where
  go (seen : List String) : List String → Option String
    | [] => none
    | name :: names => if name ∈ seen then some name else go (name :: seen) names

def repeatedMessage (name : String) : String :=
  "Parameter " ++ Text.quoted name ++ " is declared more than once."

end Param

end TypedCalls
