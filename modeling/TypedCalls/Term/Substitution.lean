import TypedCalls.Term.Nullable

/-!
Substitution for free variables.

Names bound by a quantifier or by a function's type parameters are shadowed inside that binder;
binders keep their names. Whatever a variable stands for is replaced in turn, without any shadow,
so chains of bindings come out fully read. Reading a variable through `n` bindings is `standsFor n`;
a mapping of `n` variables in which no variable leads back to itself needs no more than that.
-/

set_option autoImplicit false

namespace TypedCalls.Term

mutual

def replace (f : TypeVar → Option Term) (shadow : List TypeVar) : Term → Term
  | .con head args => applied head (replaceAll f shadow args)
  | .use v => if v ∈ shadow then .use v else (f v).getD (.use v)
  | .scheme quantifier vars body => .scheme quantifier vars (replace f (vars ++ shadow) body)
  | .func typeParams params result =>
    .func typeParams (replaceAll f (typeParams ++ shadow) params)
      (replace f (typeParams ++ shadow) result)

def replaceAll (f : TypeVar → Option Term) (shadow : List TypeVar) : List Term → List Term
  | [] => []
  | t :: ts => replace f shadow t :: replaceAll f shadow ts

end

theorem replaceAll_eq_map (f : TypeVar → Option Term) (shadow : List TypeVar) (ts : List Term) :
    replaceAll f shadow ts = ts.map (replace f shadow) := by
  induction ts with
  | nil => rfl
  | cons t ts ih => simp [replaceAll, ih]

def standsFor (γ : TypeVar → Option Term) : Nat → TypeVar → Option Term
  | 0, _ => none
  | n + 1, v => (γ v).map (replace (standsFor γ n) [])

def substWithin (γ : TypeVar → Option Term) (n : Nat) (t : Term) : Term :=
  replace (standsFor γ n) [] t

/-- A finite mapping; of two entries for one variable the later counts. -/
abbrev Mapping := List (TypeVar × Term)

/-- What a mapping says of a variable. -/
def Mapping.get? : Mapping → TypeVar → Option Term
  | [], _ => none
  | (w, t) :: rest, v =>
    match Mapping.get? rest v with
    | some s => some s
    | none => if v = w then some t else none

/-- Replace free variables according to a finite mapping. -/
def subst (γ : Mapping) (t : Term) : Term :=
  substWithin (Mapping.get? γ) γ.length t

end TypedCalls.Term
