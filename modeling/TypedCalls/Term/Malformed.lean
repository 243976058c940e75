import TypedCalls.Term.Printer

/-!
Building terms from parts that may not fit together.
-/

set_option autoImplicit false

namespace TypedCalls

/-- Why parts do not make a term. -/
inductive Malformed where
  | emptyBinder
  | repeatedBinder (vars : List TypeVar)
  | nullableArity (count : Nat)
  | alreadyNullable (t : Term)
  | repeatedTypeParam
  deriving Repr, DecidableEq

/-- What is said about parts that do not make a term. -/
def Malformed.message : Malformed → String
  | .emptyBinder => "A quantifier must bind at least one variable."
  | .repeatedBinder vars =>
    "A quantifier may not bind the same name twice: " ++ Term.varNames vars
  | .nullableArity count =>
    "The nullable marker takes exactly one argument, not " ++ toString count ++ "."
  | .alreadyNullable t => t.render ++ " is already nullable."
  | .repeatedTypeParam => "A function may not bind the same type parameter twice."

namespace Term

def con? (head : String) (args : List Term) : Except Malformed Term :=
  if head = nullableHead then
    match args with
    | [a] => if a.isKnownNullable then .error (.alreadyNullable a) else .ok (.con head [a])
    | _ => .error (.nullableArity args.length)
  else .ok (.con head args)

def scheme? (quantifier : Quantifier) (vars : List TypeVar) (body : Term) :
    Except Malformed Term :=
  if vars.isEmpty then .error .emptyBinder
  else if vars.Nodup then .ok (.scheme quantifier vars body)
  else .error (.repeatedBinder vars)

def func? (typeParams : List TypeVar) (params : List Term) (result : Term) :
    Except Malformed Term :=
  if typeParams.Nodup then .ok (.func typeParams params result)
  else .error .repeatedTypeParam

end Term

end TypedCalls
