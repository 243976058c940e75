/-!
How many values a parameter accepts.
-/

set_option autoImplicit false

namespace TypedCalls

/-- At least `minimum` values, and at most `maximum` unless that is unbounded. -/
structure Arity where
  minimum : Nat
  maximum : Option Nat
  minimum_le : ∀ most, maximum = some most → minimum ≤ most
  deriving DecidableEq

namespace Arity

def render (arity : Arity) : String :=
  "[" ++ toString arity.minimum ++ ".." ++
    (match arity.maximum with
      | none => "*"
      | some most => toString most) ++ "]"

end Arity

/-- Why counts do not make an arity, or cannot be taken from one. -/
inductive ArityError where
  | negativeMinimum
  | maximumBelowMinimum
  | negativeCount (n : Int)
  | overdrawn (n : Int) (arity : Arity)
  deriving DecidableEq

def ArityError.message : ArityError → String
  | .negativeMinimum => "An arity's minimum cannot be negative."
  | .maximumBelowMinimum => "An arity's maximum cannot be less than its minimum."
  | .negativeCount n => toString n
  | .overdrawn n arity =>
    "Cannot take " ++ toString n ++ " values from " ++ arity.render ++ "."

namespace Arity

def required : Arity := ⟨1, some 1, by simp⟩

def optional : Arity := ⟨0, some 1, by simp⟩

def zeroOrMore : Arity := ⟨0, none, by simp⟩

def oneOrMore : Arity := ⟨1, none, by simp⟩

/-- An arity from two counts. -/
def make (minimum : Int) (maximum : Option Int) : Except ArityError Arity :=
  if minimum < 0 then .error .negativeMinimum
  else
    match maximum with
    | none => .ok ⟨minimum.toNat, none, by simp⟩
    | some most =>
      if h : most < minimum then .error .maximumBelowMinimum
      else .ok ⟨minimum.toNat, some most.toNat, by
        intro n hn
        cases hn
        omega⟩

def isNullable (arity : Arity) : Bool := arity.minimum == 0

def isVariadic (arity : Arity) : Bool := arity.maximum.all fun most => 1 < most

def isFull (arity : Arity) : Bool := arity.maximum == some 0

/-- What is left of an arity after `n` values have been taken. -/
def consume (arity : Arity) (n : Int) : Except ArityError Arity :=
  if n < 0 then .error (.negativeCount n)
  else if n = 0 then .ok arity
  else
    match h : arity.maximum with
    | none => .ok ⟨arity.minimum - n.toNat, none, by simp⟩
    | some most =>
      if (most : Int) < n then .error (.overdrawn n arity)
      else .ok ⟨arity.minimum - n.toNat, some (most - n.toNat), by
        have := arity.minimum_le most h
        intro m hm
        cases hm
        omega⟩

/-- The mark for an arity after a parameter's name. -/
def mark (arity : Arity) : String :=
  match arity.minimum, arity.maximum with
  | 1, some 1 => ""
  | 0, some 1 => "?"
  | 1, none => "+"
  | 0, none => "*"
  | least, none => "\x7b" ++ toString least ++ ",\x7d"
  | least, some most => "\x7b" ++ toString least ++ ".." ++ toString most ++ "\x7d"

end Arity

end TypedCalls
