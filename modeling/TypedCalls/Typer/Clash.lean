import TypedCalls.Term.Printer

/-!
Why two terms cannot be made equal.
-/

set_option autoImplicit false

namespace TypedCalls

/-- The ways in which two terms clash. -/
inductive ClashKind where
  | unequal
  | heads
  | argumentCounts
  | parameterCounts
  | notFunction
  | recursive
  | rigid
  | escape
  deriving DecidableEq, Repr

/-- What is said of a clash, from the texts of the two terms. -/
def ClashKind.message (prior term : String) : ClashKind → String
  | .unequal => "Cannot unify " ++ prior ++ " with " ++ term ++ "."
  | .heads =>
    "This tries to be both " ++ prior ++ " and also " ++ term ++ ", which cannot happen."
  | .argumentCounts =>
    prior ++ " and " ++ term ++
      " apply the same constructor to different numbers of arguments."
  | .parameterCounts =>
    "The functions " ++ prior ++ " and " ++ term ++
      " take different numbers of parameters."
  | .notFunction => prior ++ " is a function type, but " ++ term ++ " is not."
  | .recursive =>
    "This tries to equate " ++ prior ++ " with " ++ term ++
      " which contains it, but a type cannot be part of itself."
  | .rigid =>
    prior ++ " stands for any type at all, so it cannot be made to agree with " ++ term ++ "."
  | .escape =>
    "Equating " ++ prior ++ " with " ++ term ++
      " would let a quantified variable leak out of its scheme."

/-- Two terms that cannot be made equal, and why. -/
structure Clash where
  kind : ClashKind
  prior : Term
  term : Term
  deriving DecidableEq, Repr

def Clash.message (clash : Clash) : String :=
  clash.kind.message clash.prior.render clash.term.render

end TypedCalls
