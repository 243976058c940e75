import TypedCalls.Eval.Error
import TypedCalls.Standard.Types
import TypedCalls.Value.Evidence

/-!
Where types meet values: making one value acceptable for a declared type, and lifting several values
into one list.
-/

set_option autoImplicit false

namespace TypedCalls

/-- Instances whose evidence works on payloads. -/
abbrev Instances := Registry Built

abbrev Coercing := EStateM EvalError Session

abbrev Reporting := EStateM EvalError Report

/-- Meet goals, looking at no more than `limit` states. -/
def Instances.meetWithin (instances : Instances) (limit : Nat) (typer : Typer) (goals : List Term) :
    Reporting (Typer × List Evidence) := fun report =>
  match Registry.resolve instances limit typer goals report with
  | .error failure r => .error (.resolution failure) r
  | .ok found r =>
    match found.2.mapM id with
    | .ok evidence => .ok (found.1, evidence) r
    | .error fault => .error (.payload fault) r

def Instances.meet (instances : Instances) (typer : Typer) (goals : List Term) :
    Reporting (Typer × List Evidence) :=
  instances.meetWithin Resolution.maxExpansions typer goals

def convert (value : Value) (target : Term) (name : String) (cast : Cast) : Coercing Value := do
  let type := (← get).typer.read target
  modify fun s => { s with report := s.report.tell fun _ =>
    ["upcast", name, "from", value.type.render, "to", type.render] }
  match cast.apply value.payload with
  | .ok payload => return ⟨payload, type⟩
  | .error fault => throw (.payload fault)

/-- Find a cast from the type of a value to `target`. -/
def findCast (instances : Instances) (value : Value) (target : Term) (name : String) :
    Coercing Cast := fun s =>
  match instances.meet s.typer [Standard.upcast value.type target] s.report with
  | .ok (typer, evidence) r => .ok (evidence.headD default).toCast (s.adopt typer r)
  | .error (.resolution (.noInstance _)) r =>
    .error (.argumentMismatch name target value.type) (s.discard r)
  | .error (.resolution (.cyclic _ _)) r =>
    .error (.argumentMismatch name target value.type) (s.discard r)
  | .error e r => .error e (s.discard r)

/-- Make a value acceptable where `expected` is wanted, teaching the typer whatever that takes. The
types may agree already; failing that, a cast from the type of the value does the job. -/
def coerce (instances : Instances) (value : Value) (expected : Term) (name : String) :
    Coercing Value := fun s =>
  match Typing.unify expected value.type s.trial with
  | .ok () t => .ok value (s.adopt t.typer t.report)
  | .error .tooDeep t => .error .tooDeep (s.discard t.report)
  | .error (.clash _) t =>
    let target := s.typer.read expected
    (do convert value target name (← findCast instances value target name) : Coercing Value)
      (s.discard t.report)

def applyAll (casts : List Cast) (values : List Value) : Except ValueFault (List Payload) :=
  (casts.zip values).mapM fun pair => pair.1.apply pair.2.payload

/-- One list from several values, at a type that all of them can be converted to. -/
def liftList (instances : Instances) (values : List Value) : Reporting Value := do
  match values with
  | [] => return ⟨.list [], Standard.listOf Standard.nothing⟩
  | first :: rest =>
    if rest.all fun v => v.type == first.type then
      return ⟨.list (values.map Value.payload), Standard.listOf first.type⟩
    let made := Typer.fresh.freshVar .unification
    let element := Term.use made.1
    let found ← instances.meet made.2 (values.map fun v => Standard.upcast v.type element)
    match applyAll (found.2.map Evidence.toCast) values with
    | .ok payloads => return ⟨.list payloads, Standard.listOf (found.1.read element)⟩
    | .error fault => throw (.payload fault)

end TypedCalls
