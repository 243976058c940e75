import TypedCalls.Report
import TypedCalls.Typer.Basic
import TypedCalls.Typer.Clash

/-!
Structural unification of terms.

Unification either succeeds, having taught the typer something, or fails with a clash; a failure may
leave partial knowledge behind. Opening a quantifier anew at every comparison can go on for ever, so
`unifyWithin` takes the depth it may go to. `unify` allows a depth that problems without quantifiers
never reach.

Two universal schemes are compared with the variables of one side rigid and those of the other
open. Both ways round are tried, and the first that works is kept.
-/

set_option autoImplicit false

namespace TypedCalls

/-- A typer at work, and the report of its work. Once the typer has taken over what a trial learned,
`former` is what it knew when it first did so. -/
structure Session where
  typer : Typer
  report : Report
  former : Option Classes
  deriving Inhabited

namespace Session

/-- A typer that sets to work. -/
def start (typer : Typer) (report : Report) : Session := ⟨typer, report, none⟩

def trial (s : Session) : Session := start s.typer s.report

def discard (s : Session) (report : Report) : Session := { s with report := report }

def adopt (s : Session) (typer : Typer) (report : Report) : Session :=
  ⟨typer, report, s.former.or (some s.typer.classes)⟩

end Session

/-- Why a unification stopped. -/
inductive UnifyFailure where
  | clash (clash : Clash)
  | tooDeep
  deriving DecidableEq, Repr

abbrev Typing := EStateM UnifyFailure Session

namespace Typing

def tell (words : Unit → List String) : Typing Unit :=
  modify fun s => { s with report := s.report.tell words }

def change (f : Typer → Typer) : Typing Unit :=
  modify fun s => { s with typer := f s.typer }

def current : Typing Typer := return (← get).typer

/-- Stop because two terms clash. -/
def clash (kind : ClashKind) (prior term : Term) : Typing Unit :=
  throw (.clash ⟨kind, prior, term⟩)

def openTerm (family : Family) (vars : List TypeVar) (body : Term) : Typing Term := do
  let typer ← current
  let made := typer.freshFor family vars
  change fun _ => made.2
  return body.subst made.1

def openTerms (family : Family) (vars : List TypeVar) (terms : List Term) : Typing (List Term) := do
  let typer ← current
  let made := typer.instantiate family vars terms
  change fun _ => made.2
  return made.1

/-- Try two ways from the same typer and keep the first that works. If both clash, the typer is as
it was and the first clash is the one reported. -/
def firstOf (first second : Typing Unit) : Typing Unit := fun s =>
  match first s.trial with
  | .ok () t => .ok () (s.adopt t.typer t.report)
  | .error .tooDeep t => .error .tooDeep (s.discard t.report)
  | .error (.clash c) t =>
    match second (s.discard t.report).trial with
    | .ok () u => .ok () (s.adopt u.typer u.report)
    | .error .tooDeep u => .error .tooDeep (s.discard u.report)
    | .error (.clash _) u => .error (.clash c) (s.discard u.report)

def permit (v : TypeVar) (t : Term) : Typing Unit := do
  let typer ← current
  if typer.isRigid v then clash .rigid (.use v) t
  else if typer.classes.occurs v t then clash .recursive (.use v) t

def join (v w : TypeVar) : Typing Unit := do
  tell fun _ => ["join", v.name, w.name]
  change fun typer => { typer with classes := typer.classes.join v w }

def bindTo (v : TypeVar) (t : Term) : Typing Unit := do
  tell fun _ => ["bind", v.name, ":=", t.render]
  change fun typer => { typer with classes := typer.classes.set v (some t) }

/-- Equate two variables, the first of which is not bound. -/
def equate (v w : TypeVar) : Typing Unit := do
  let typer ← current
  if typer.classes.same v w then return
  match typer.classes.bound? w with
  | some target => permit v target
  | none =>
    if typer.isRigid v && typer.isRigid w then clash .rigid (.use v) (.use w)
  join v w

def learn (v : TypeVar) : Term → Typing Unit
  | .use w => equate v w
  | t => do
    permit v t
    bindTo v t

/-- Compare two universal schemes with the variables of the first rigid. The variables made for the
comparison may not show in `outside`; `whole` is the clash to report if they do. -/
def compareRigid (unify : Term → Term → Typing Unit) (outside : List TypeVar) (whole : Clash)
    (rigidVars : List TypeVar) (rigidBody : Term) (openVars : List TypeVar) (openBody : Term) :
    Typing Unit := do
  let before ← current
  let made := before.freshFor .existential rigidVars
  let skolems := made.1.flatMap fun entry => entry.2.freeVars
  change fun _ => { made.2 with rigid := before.rigid ++ skolems }
  let right ← openTerm .existential openVars openBody
  unify (rigidBody.subst made.1) right
  let after ← current
  if after.escapes skolems outside then throw (.clash whole)
  change fun typer => { typer with rigid := before.rigid }

def unifyVar (unify : Term → Term → Typing Unit) (v : TypeVar) (t : Term) : Typing Unit := do
  match (← current).classes.bound? v with
  | some bound => unify bound t
  | none => learn v t

def familyOf : Quantifier → Family
  | .every => .existential
  | .some => .unification

def unifyOpened (unify : Term → Term → Typing Unit) (other : Term) (quantifier : Quantifier)
    (vars : List TypeVar) (body : Term) : Typing Unit := do
  unify other (← openTerm (familyOf quantifier) vars body)

def unifyEach (unify : Term → Term → Typing Unit) (as bs : List Term) : Typing Unit :=
  (as.zip bs).forM fun pair => unify pair.1 pair.2

def unifyFunctions (unify : Term → Term → Typing Unit) (vs : List TypeVar) (ps : List Term)
    (s : Term) (ws : List TypeVar) (qs : List Term) (t : Term) : Typing Unit := do
  let left ← openTerms .unification vs (ps ++ [s])
  let right ← openTerms .unification ws (qs ++ [t])
  unifyEach unify left right

def unifySchemes (unify : Term → Term → Typing Unit) (vs : List TypeVar) (s : Term)
    (ws : List TypeVar) (t : Term) : Typing Unit := do
  let a := Term.scheme .every vs s
  let b := Term.scheme .every ws t
  let outside := (← current).visible a b
  firstOf (compareRigid unify outside ⟨.escape, a, b⟩ vs s ws t)
    (compareRigid unify outside ⟨.escape, a, b⟩ ws t vs s)

/-- Make two terms equal, leaving their parts to `unify`. -/
def unifyStep (unify : Term → Term → Typing Unit) (a b : Term) : Typing Unit :=
  if a = b then pure ()
  else match a, b with
  | .use v, t => unifyVar unify v t
  | t, .use v => unifyVar unify v t
  | .scheme .every vs s, .scheme .every ws t => unifySchemes unify vs s ws t
  | .scheme quantifier vs s, t => unifyOpened unify t quantifier vs s
  | t, .scheme quantifier vs s => unifyOpened unify t quantifier vs s
  | .func vs ps s, .func ws qs t =>
    if ps.length = qs.length then unifyFunctions unify vs ps s ws qs t
    else clash .parameterCounts a b
  | .func .., .con .. => clash .notFunction a b
  | .con .., .func .. => clash .notFunction b a
  | .con h as, .con k bs =>
    if h ≠ k then clash .heads a b
    else if as.length ≠ bs.length then clash .argumentCounts a b
    else unifyEach unify as bs

/-- Make two terms equal, going at most so deep. -/
def unifyWithin : Nat → Term → Term → Typing Unit
  | 0, _, _ => throw .tooDeep
  | depth + 1, a, b => unifyStep (unifyWithin depth) a b

end Typing

namespace Typer

def weight (typer : Typer) (a b : Term) : Nat :=
  typer.classes.entries.length +
    Term.sizeAll (typer.classes.nodes.toList.filterMap ClassNode.bound) + a.size + b.size

/-- The depth that a unification may go to. In a problem without quantifiers every path through the
terms enters each class at most once, and a variable is read at most twice before a constructor;
problems with quantifiers may need more. -/
def depthFor (typer : Typer) (a b : Term) : Nat :=
  10000 + 3 * ((typer.weight a b + 1) * (typer.weight a b + 1))

end Typer

/-- Make two terms equal. -/
def Typing.unify (a b : Term) : Typing Unit := do
  Typing.unifyWithin ((← Typing.current).depthFor a b) a b

end TypedCalls
