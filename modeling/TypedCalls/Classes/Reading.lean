import TypedCalls.Classes.Basic
import TypedCalls.Term.Substitution

/-!
Reading terms through the classes, and which variables a term leads to.
-/

set_option autoImplicit false

namespace TypedCalls.Classes

/-- Read a term through everything the classes know. Where no class leads back to itself, a chain of
bindings passes through each class at most once. -/
def read (s : Classes) (t : Term) : Term :=
  t.substWithin s.bound? s.nodes.size

def successors (s : Classes) (v : TypeVar) : List TypeVar :=
  match s.bound? v with
  | some t => t.freeVars
  | none => []

def reach (s : Classes) : Nat → List TypeVar → List TypeVar → List TypeVar
  | 0, seen, _ => seen
  | n + 1, seen, frontier =>
    match ((frontier.flatMap s.successors).filter (· ∉ seen)).eraseDups with
    | [] => seen
    | next => reach s n (seen ++ next) next

def reachable (s : Classes) (t : Term) : List TypeVar :=
  s.reach s.nodes.size t.freeVars t.freeVars

def occurs (s : Classes) (v : TypeVar) (t : Term) : Bool :=
  (s.reachable t).any (s.same v)

end TypedCalls.Classes
