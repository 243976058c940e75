import TypedCalls.Classes.Reading

/-!
The state of one attempt at typing: what is known of the variables, which of them are rigid, and a
supply of fresh names.
-/

set_option autoImplicit false

namespace TypedCalls

/-- What is known so far. Rigid variables may be equated with other variables but never bound to a
term; `counter` is the number of the last fresh name. -/
structure Typer where
  classes : Classes
  rigid : List TypeVar
  counter : Nat
  deriving Inhabited, DecidableEq, Repr

namespace Typer

/-- Nothing is known and no name was given out. -/
def fresh : Typer := ⟨.empty, [], 0⟩

def freshVar (typer : Typer) (family : Family) : TypeVar × Typer :=
  (.numbered family (typer.counter + 1), { typer with counter := typer.counter + 1 })

def freshFor (typer : Typer) (family : Family) : List TypeVar → Term.Mapping × Typer
  | [] => ([], typer)
  | v :: vs =>
    let made := typer.freshVar family
    let rest := freshFor made.2 family vs
    ((v, .use made.1) :: rest.1, rest.2)

def instantiate (typer : Typer) (family : Family) (vars : List TypeVar) (terms : List Term) :
    List Term × Typer :=
  let made := typer.freshFor family vars
  (terms.map (Term.subst made.1), made.2)

/-- Read a term through everything that is known. -/
def read (typer : Typer) (t : Term) : Term := typer.classes.read t

def isRigid (typer : Typer) (v : TypeVar) : Bool := typer.rigid.any (typer.classes.same v)

def rigidNames (typer : Typer) : List String :=
  (typer.rigid.map TypeVar.name).eraseDups.mergeSort

/-- Everything that can be seen from outside of two terms: their free variables, the variables
mentioned so far, and the free variables of what those stand for. -/
def visible (typer : Typer) (a b : Term) : List TypeVar :=
  a.freeVars ++ b.freeVars ++ typer.classes.listing.flatMap fun c =>
    c.1 ++ (c.2.map Term.freeVars).getD []

def escapes (typer : Typer) (skolems outside : List TypeVar) : Bool :=
  outside.any fun w =>
    (w :: (typer.read (.use w)).freeVars).any fun x =>
      skolems.any fun s => typer.classes.same s x

end Typer

end TypedCalls
