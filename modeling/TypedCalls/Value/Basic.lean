import TypedCalls.Call.Param
import TypedCalls.Expr.Basic

/-!
Values that know their types, and functions that the evaluator can call.
-/

set_option autoImplicit false

namespace TypedCalls

/-- What a host function returns, given its arguments and the evidence for its implicits. Evidence is
counted from zero, or from the end if the number is negative; arguments go by name, and an absent one
counts as nothing. -/
inductive Recipe where
  | all
  | pick (arg : String)
  | types
  | implicits
  | cast (k : Int) (arg : String)
  | combine (k : Int) (first second : String)
  | invert (k : Int) (arg : String)
  | zero (k : Int)
  | evaluate (arg : String)
  | fail (text : String)
  deriving DecidableEq, Repr

/-- What a function does when called. A closure evaluates its code in a child of the scope it was
defined in. A function is `flawed` if it was declared with something of another kind where a type
belongs; `sound` of its parameters come before that. -/
inductive Body where
  | sum
  | list
  | pair
  | map
  | set
  | define
  | quote
  | host (recipe : Recipe)
  | closure (scope : Nat) (code : Expr)
  | flawed (sound : Nat) (kind : String)
  deriving Inhabited

/-- A function: `typeParams` are made fresh for every call, `implicits` are goals whose evidence goes
to the body in order. No two functions have the same `id`. -/
structure Function where
  id : Nat
  name : String
  typeParams : List TypeVar
  params : List Param
  result : Term
  implicits : List Term
  body : Body
  deriving Inhabited

/-- The content of a value. A map keeps its entries in order of insertion, a set its elements. -/
inductive Payload where
  | none
  | bool (b : Bool)
  | int (n : Int)
  | rat (q : Rat)
  | real (x : Float)
  | text (s : String)
  | list (items : List Payload)
  | tuple (items : List Payload)
  | map (entries : List (Payload × Payload))
  | set (elements : List Payload)
  | union (index : Int) (value : Payload)
  | type (t : Term)
  | code (e : Expr)
  | function (fn : Function)
  deriving Inhabited

/-- A tuple of two. -/
@[match_pattern]
def Payload.pair (first second : Payload) : Payload := .tuple [first, second]

/-- A payload and its type. -/
structure Value where
  payload : Payload
  type : Term
  deriving Inhabited

namespace Function

/-- The type of a function. -/
def type (fn : Function) : Term := .func fn.typeParams (fn.params.map Param.type) fn.result

/-- A function as a value. -/
def toValue (fn : Function) : Value := ⟨.function fn, fn.type⟩

def render (fn : Function) : String :=
  "<fn " ++ fn.name ++ "(" ++ " ".intercalate (fn.params.map Param.render) ++ ")>"

end Function

end TypedCalls
