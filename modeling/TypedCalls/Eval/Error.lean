import TypedCalls.Instance.Resolution
import TypedCalls.Value.Fault
import TypedCalls.Value.Key
import TypedCalls.Value.Printer

/-!
What goes wrong in evaluation.
-/

set_option autoImplicit false

namespace TypedCalls

/-- An argument as it stands in a call: its position and its expression. -/
structure Actual where
  position : Nat
  code : Expr

/-- One and the same argument, or arguments that hold the same. -/
instance : BEq Actual where
  beq a b := a.position == b.position || a.code.same b.code

/-- Why an evaluation fails. -/
inductive EvalError where
  | unbound (name : String) (similar : List String)
  | emptyApplication
  | notAFunction (head : Expr) (value : Value)
  | argumentMismatch (name : String) (expected actual : Term)
  | badDefinition (head : Expr)
  | badParameter (name : String) (param : Expr)
  | notAType (code : Expr)
  | keywordAlone (name : String)
  | failed (text : String)
  | repeatedParameter (name : String)
  | matching (error : MatchError Actual)
  | resolution (failure : ResolveFailure)
  | payload (fault : ValueFault)
  | tooDeep

/-- What is said of an evaluation that fails. -/
def EvalError.message : EvalError → String
  | .unbound name similar =>
    "Unbound variable " ++ Text.quoted name ++ "." ++
      (if similar.isEmpty then "" else " Did you mean: " ++ ", ".intercalate similar ++ "?")
  | .emptyApplication => "Cannot apply an empty form."
  | .notAFunction head value =>
    head.written ++ " is not a function; it is " ++ value.render ++ "."
  | .argumentMismatch name expected actual =>
    "Argument " ++ Text.quoted name ++ " wants " ++ expected.render ++ " but got " ++
      actual.render ++ "."
  | .badDefinition head =>
    "Cannot define " ++ head.content ++
      ": expected a name or a (name (param Type) ... Result) signature."
  | .badParameter name param =>
    "In " ++ name ++ ", expected (param Type) but got " ++ param.written ++ "."
  | .notAType code => code.content ++ " does not name a type."
  | .keywordAlone name => name ++ " names an argument; it has no value of its own."
  | .failed text => text
  | .repeatedParameter name => Param.repeatedMessage name
  | .matching error => error.message fun actual => actual.code.written
  | .resolution failure => failure.message
  | .payload fault => fault.message
  | .tooDeep => "Evaluation went too deep."

end TypedCalls
