/-!
Type variables and type terms: equality, size, free variables and induction.
-/

set_option autoImplicit false

namespace TypedCalls

/-- The two families of made-up variables, which share one counter. -/
inductive Family where
  | unification
  | existential
  deriving DecidableEq, Repr

def Family.mark : Family → Char
  | .unification => 'ξ'
  | .existential => 'φ'

/-- A type variable is known by its name alone. -/
structure TypeVar where
  name : String
  deriving DecidableEq, Repr, Inhabited

namespace TypeVar

def belongsTo (v : TypeVar) (family : Family) : Bool :=
  v.name.toList.head? == some family.mark

def numbered (family : Family) (n : Nat) : TypeVar :=
  ⟨String.singleton family.mark ++ toString n⟩

end TypeVar

/-- How a scheme binds its variables. -/
inductive Quantifier where
  | every
  | some
  deriving DecidableEq, Repr

/-- A type: a constructor applied to arguments, a variable, a body under a quantifier, or a
function type with type parameters of its own. -/
inductive Term where
  | con (head : String) (args : List Term)
  | use (v : TypeVar)
  | scheme (quantifier : Quantifier) (vars : List TypeVar) (body : Term)
  | func (typeParams : List TypeVar) (params : List Term) (result : Term)
  deriving Repr, Inhabited

namespace Term

abbrev named (head : String) : Term := .con head []

@[elab_as_elim]
theorem induct {motive : Term → Prop}
    (con : ∀ head args, (∀ a ∈ args, motive a) → motive (.con head args))
    (use : ∀ v, motive (.use v))
    (scheme : ∀ quantifier vars body, motive body → motive (.scheme quantifier vars body))
    (func : ∀ typeParams params result, (∀ p ∈ params, motive p) → motive result →
      motive (.func typeParams params result)) (t : Term) : motive t :=
  @Term.rec motive (fun ts => ∀ a ∈ ts, motive a)
    con use scheme func (fun _ h => nomatch h)
    (fun _ _ head tail a h => by
      cases h with
      | head => exact head
      | tail _ h => exact tail a h) t

mutual

/-- Terms are equal when they are built alike. -/
def decEq : (a b : Term) → Decidable (a = b)
  | .con h as, .con k bs =>
    match decEqString h k, decEqAll as bs with
    | isTrue hk, isTrue hs => isTrue (by rw [hk, hs])
    | isFalse hk, _ => isFalse (by intro e; injection e; contradiction)
    | _, isFalse hs => isFalse (by intro e; injection e; contradiction)
  | .use v, .use w =>
    match decEqVar v w with
    | isTrue h => isTrue (by rw [h])
    | isFalse h => isFalse (by intro e; injection e; contradiction)
  | .scheme q vs s, .scheme r ws t =>
    match decEqQuantifier q r, decEqVars vs ws, decEq s t with
    | isTrue hq, isTrue hv, isTrue hs => isTrue (by rw [hq, hv, hs])
    | isFalse hq, _, _ => isFalse (by intro e; injection e; contradiction)
    | _, isFalse hv, _ => isFalse (by intro e; injection e; contradiction)
    | _, _, isFalse hs => isFalse (by intro e; injection e; contradiction)
  | .func vs ps s, .func ws qs t =>
    match decEqVars vs ws, decEqAll ps qs, decEq s t with
    | isTrue hv, isTrue hp, isTrue hs => isTrue (by rw [hv, hp, hs])
    | isFalse hv, _, _ => isFalse (by intro e; injection e; contradiction)
    | _, isFalse hp, _ => isFalse (by intro e; injection e; contradiction)
    | _, _, isFalse hs => isFalse (by intro e; injection e; contradiction)
  | .con .., .use _ => isFalse nofun
  | .con .., .scheme .. => isFalse nofun
  | .con .., .func .. => isFalse nofun
  | .use _, .con .. => isFalse nofun
  | .use _, .scheme .. => isFalse nofun
  | .use _, .func .. => isFalse nofun
  | .scheme .., .con .. => isFalse nofun
  | .scheme .., .use _ => isFalse nofun
  | .scheme .., .func .. => isFalse nofun
  | .func .., .con .. => isFalse nofun
  | .func .., .use _ => isFalse nofun
  | .func .., .scheme .. => isFalse nofun
where
  decEqString (a b : String) : Decidable (a = b) := inferInstance
  decEqVar (a b : TypeVar) : Decidable (a = b) := inferInstance
  decEqVars (a b : List TypeVar) : Decidable (a = b) := inferInstance
  decEqQuantifier (a b : Quantifier) : Decidable (a = b) := inferInstance

def decEqAll : (as bs : List Term) → Decidable (as = bs)
  | [], [] => isTrue rfl
  | [], _ :: _ => isFalse nofun
  | _ :: _, [] => isFalse nofun
  | a :: as, b :: bs =>
    match decEq a b, decEqAll as bs with
    | isTrue h, isTrue hs => isTrue (by rw [h, hs])
    | isFalse h, _ => isFalse (by intro e; injection e; contradiction)
    | _, isFalse hs => isFalse (by intro e; injection e; contradiction)

end

instance : DecidableEq Term := decEq

mutual

def size : Term → Nat
  | .con _ args => sizeAll args + 1
  | .use _ => 1
  | .scheme _ vars body => vars.length + body.size + 1
  | .func typeParams params result => typeParams.length + sizeAll params + result.size + 1

def sizeAll : List Term → Nat
  | [] => 0
  | t :: ts => t.size + sizeAll ts

end

mutual

/-- The free variables in reading order, repeats kept. -/
def freeVars : Term → List TypeVar
  | .con _ args => freeVarsAll args
  | .use v => [v]
  | .scheme _ vars body => body.freeVars.filter (· ∉ vars)
  | .func typeParams params result =>
    (freeVarsAll params ++ result.freeVars).filter (· ∉ typeParams)

def freeVarsAll : List Term → List TypeVar
  | [] => []
  | t :: ts => t.freeVars ++ freeVarsAll ts

end

theorem size_le_sizeAll {t : Term} {ts : List Term} (h : t ∈ ts) : t.size ≤ sizeAll ts := by
  induction ts with
  | nil => cases h
  | cons s ts ih =>
    simp only [sizeAll]
    cases h with
    | head => omega
    | tail _ h =>
      have := ih h
      omega

theorem freeVarsAll_eq_flatMap (ts : List Term) : freeVarsAll ts = ts.flatMap freeVars := by
  induction ts with
  | nil => rfl
  | cons t ts ih => simp [freeVarsAll, ih]

/-- The head of an applied constructor. -/
def head? : Term → Option String
  | .con head _ => some head
  | _ => none

def arguments : Term → List Term
  | .con _ args => args
  | _ => []

end Term

end TypedCalls
