import TypedCalls.Expr.Basic
import TypedCalls.Term.Basic

/-!
Keys, by which expressions and the elements of sets and maps are told apart. Numbers count by their
worth and code by what it holds, whatever the kinds, so things that hold the same have the same key.
-/

set_option autoImplicit false

namespace TypedCalls

/-- What is compared. -/
inductive Key where
  | nothing
  | number (a : Number)
  | text (s : String)
  | type (t : Term)
  | function (id : Nat)
  | tuple (parts : List Key)
  deriving Inhabited

namespace Key

mutual

/-- Whether two keys are the same. -/
def same : Key → Key → Bool
  | .nothing, .nothing => true
  | .number a, .number b => a.same b
  | .text a, .text b => a == b
  | .type a, .type b => a == b
  | .function a, .function b => a == b
  | .tuple as, .tuple bs => sameAll as bs
  | _, _ => false

def sameAll : List Key → List Key → Bool
  | [], [] => true
  | a :: as, b :: bs => same a b && sameAll as bs
  | _, _ => false

end

end Key

namespace Expr

mutual

def key : Expr → Key
  | .atom name => .tuple [.text name]
  | .integer n => .tuple [.number (.int n)]
  | .decimal x => .tuple [.number (.real x)]
  | .rational q => .tuple [.number (.rat q)]
  | .string s => .tuple [.text s]
  | .seq items => .tuple [.tuple (keys items)]

def keys : List Expr → List Key
  | [] => []
  | e :: es => e.key :: keys es

end

/-- Expressions are the same when what they hold is, whatever their kinds: an atom and a string of
one text, or numbers of one worth. -/
def same (a b : Expr) : Bool := a.key.same b.key

end Expr

end TypedCalls
