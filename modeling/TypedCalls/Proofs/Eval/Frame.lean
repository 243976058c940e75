import TypedCalls.Standard.Names

/-!
What evaluation leaves alone.

An evaluation writes to no scope that was there before except the one it is given, and there it
takes no name away, whether it returns or fails (`evaluation_writes_one_scope`). A call of a
defined function works in a scope of its own, so it writes to none of the scopes that were there.

The frame is a relation of two stores, one for each choice of what may be written (`Store.Frame`). It
is reflexive and transitive, so one bind lemma carries it through every construct, and the induction
is on the depth.
-/

set_option autoImplicit false

namespace TypedCalls

/-- The scope has the parent that another had, and every name that was bound there. -/
structure Scope.Keeps (new old : Scope) : Prop where
  parent : new.parent = old.parent
  names : ∀ name, old.get? name ≠ none → new.get? name ≠ none

namespace Scope.Keeps

private theorem refl (scope : Scope) : scope.Keeps scope := ⟨rfl, fun _ bound => bound⟩

private theorem trans {new mid old : Scope} (second : new.Keeps mid) (first : mid.Keeps old) :
    new.Keeps old :=
  ⟨second.parent.trans first.parent, fun name bound => second.names name (first.names name bound)⟩

private theorem assign (scope : Scope) (name : String) (value : Value) :
    (scope.assign name value).Keeps scope := by
  refine ⟨rfl, fun other bound => ?_⟩
  rw [get?_assign]
  split
  · exact Option.some_ne_none value
  · exact bound

end Scope.Keeps

/-- Of the scopes that were in the first store, the second one differs at most in those that may be
written, and these keep their names. -/
structure Store.Frame (writable : Nat → Prop) (before after : Store) : Prop where
  untouched : ∀ (id : Nat) (old : Scope), ¬writable id → before.scopes[id]? = some old →
    after.scopes[id]? = some old
  kept : ∀ (id : Nat) (old : Scope), before.scopes[id]? = some old →
    ∃ new : Scope, after.scopes[id]? = some new ∧ new.Keeps old

namespace Store

variable {writable : Nat → Prop} {before mid after : Store}

private theorem Frame.of_scopes (same : after.scopes = before.scopes) :
    Frame writable before after :=
  ⟨fun _ _ _ found => same ▸ found, fun _ old found => ⟨old, same ▸ found, .refl old⟩⟩

private theorem Frame.trans (first : Frame writable before mid)
    (second : Frame writable mid after) : Frame writable before after := by
  refine ⟨fun id old other found => ?_, fun id old found => ?_⟩
  · exact second.untouched id old other (first.untouched id old other found)
  · obtain ⟨new, there, keeps⟩ := first.kept id old found
    obtain ⟨newer, here, keeps'⟩ := second.kept id new there
    exact ⟨newer, here, keeps'.trans keeps⟩

private theorem Frame.of_new {writable' : Nat → Prop} (frame : Frame writable before after)
    (new : ∀ id, writable id → before.scopes[id]? = none) : Frame writable' before after := by
  refine ⟨fun id old _ found => frame.untouched id old (fun here => ?_) found, frame.kept⟩
  rw [new id here] at found
  cases found

private theorem frame_assign (store : Store) (id : Nat) (name : String) (value : Value) :
    Frame (· = id) store (store.assign id name value) := by
  refine ⟨fun other old apart found => ?_, fun other old found => ?_⟩
  · rw [Store.assign, Array.getElem?_modify, if_neg (Ne.symm apart)]
    exact found
  · rw [Store.assign, Array.getElem?_modify]
    split
    · exact ⟨old.assign name value, by rw [found, Option.map_some], .assign old name value⟩
    · exact ⟨old, found, .refl old⟩

private theorem frame_child (store : Store) (parent : Nat) :
    Frame writable store (store.child parent).2 := by
  have kept : ∀ (id : Nat) (old : Scope), store.scopes[id]? = some old →
      (store.child parent).2.scopes[id]? = some old := by
    intro id old found
    obtain ⟨inside, -⟩ := Array.getElem?_eq_some_iff.mp found
    rw [Store.child, Array.getElem?_push, if_neg (Nat.ne_of_lt inside)]
    exact found
  exact ⟨fun id old _ => kept id old, fun id old found => ⟨old, kept id old found, .refl old⟩⟩

end Store

namespace Evaluating

variable {α β : Type} {writable : Nat → Prop}

/-- The store that is left in the end, whether the steps succeed or fail. -/
def left (m : Evaluating α) (store : Store) : Store :=
  match m store with
  | .ok _ after => after
  | .error _ after => after

def Stays (writable : Nat → Prop) (m : Evaluating α) : Prop :=
  ∀ store : Store, store.Frame writable (m.left store)

private theorem stays_pure (a : α) : Stays writable (pure a) := fun _ => .of_scopes rfl

private theorem stays_throw (failure : EvalError) : Stays writable (throw failure : Evaluating α) :=
  fun _ => .of_scopes rfl

private theorem stays_modify {f : Store → Store}
    (frame : ∀ store : Store, store.Frame writable (f store)) : Stays writable (modify f) :=
  frame

private theorem stays_get : Stays writable (get : Evaluating Store) := fun _ => .of_scopes rfl

private theorem Stays.bind {m : Evaluating α} {next : α → Evaluating β} (first : Stays writable m)
    (second : ∀ a, Stays writable (next a)) : Stays writable (m >>= next) := by
  intro store
  have frame := first store
  show store.Frame writable (left (EStateM.bind m next) store)
  unfold left EStateM.bind
  unfold left at frame
  cases ran : m store with
  | ok a mid =>
    rw [ran] at frame
    exact frame.trans (second a mid)
  | error failure mid =>
    rw [ran] at frame
    exact frame

private theorem stays_inChild (parent : Nat) {next : Nat → Evaluating β}
    (inside : ∀ inner, Stays (· = inner) (next inner)) :
    Stays writable (modifyGet (fun store : Store => store.child parent) >>= next) := by
  intro store
  have frame := inside store.scopes.size (store.child parent).2
  refine ((store.frame_child parent).trans frame).of_new ?_
  rintro - rfl
  exact Array.getElem?_eq_none (Nat.le_refl _)

private theorem stays_mapM {f : α → Evaluating β} (xs : List α) (each : ∀ x, Stays writable (f x)) :
    Stays writable (xs.mapM f) := by
  induction xs with
  | nil => exact stays_pure []
  | cons x xs ih =>
    rw [List.mapM_cons]
    exact (each x).bind fun y => ih.bind fun ys => stays_pure (y :: ys)

private theorem stays_forM {f : α → Evaluating PUnit} (xs : List α)
    (each : ∀ x, Stays writable (f x)) : Stays writable (xs.forM f) := by
  induction xs with
  | nil => exact stays_pure PUnit.unit
  | cons x xs ih => exact (each x).bind fun _ => ih

private theorem stays_tell (words : Unit → List String) : Stays writable (tell words) :=
  stays_modify fun _ => .of_scopes rfl

private theorem stays_reporting (work : Reporting α) : Stays writable (reporting work) := by
  intro store
  unfold left reporting
  cases work store.report <;> exact .of_scopes rfl

private theorem stays_typing (typer : Typer) (work : Coercing α) :
    Stays writable (typing typer work) := by
  intro store
  unfold left typing
  cases work (.start typer store.report) <;> exact .of_scopes rfl

private theorem stays_payload (result : Except ValueFault α) : Stays writable (payload result) := by
  cases result with
  | ok a => exact stays_pure a
  | error fault => exact stays_throw _

private theorem Stays.nested {m : Evaluating α} (stays : Stays writable m) :
    Stays writable (nested m) := by
  intro store
  have frame := stays { store with report := store.report.nest }
  unfold left Evaluating.nested
  unfold left at frame
  generalize m { store with report := store.report.nest } = result at frame
  cases result <;> exact ⟨frame.untouched, frame.kept⟩

end Evaluating

open Evaluating (Stays stays_pure stays_throw stays_modify stays_get stays_inChild stays_mapM
  stays_forM stays_tell stays_reporting stays_typing stays_payload)

def Evaluate.Stays (evaluate : Evaluate) : Prop :=
  ∀ e scope, Evaluating.Stays (· = scope) (evaluate e scope)

section Steps

variable {evaluate : Evaluate} {scope : Nat} (stays : evaluate.Stays)

private theorem stays_codeOf {writable : Nat → Prop} (p : Payload) : Stays writable (codeOf p) := by
  unfold codeOf
  split
  · exact stays_pure _
  · exact stays_throw _

private theorem stays_fetch {writable : Nat → Prop} (name : String) (scope : Nat) :
    Stays writable (fetch name scope) := by
  refine stays_get.bind fun store => ?_
  split
  · exact stays_pure _
  · exact stays_throw _

include stays

private theorem stays_typeNamed (code : Expr) :
    Stays (· = scope) (typeNamed evaluate scope code) := by
  refine (stays code scope).bind fun value => ?_
  by_cases other : value.type ≠ Standard.type
  · rw [if_pos other]
    exact stays_throw _
  · rw [if_neg other]
    exact stays_pure value.payload

private theorem stays_declared (function : String) (form : Expr) :
    Stays (· = scope) (declared evaluate scope function form) := by
  unfold declared
  split
  · exact (stays_typeNamed stays _).bind fun type => stays_pure _
  · exact stays_throw _

private theorem stays_defineFunction (name : String) (forms : List Expr) (result code : Expr) :
    Stays (· = scope) (defineFunction evaluate scope name forms result code) := by
  refine (stays_mapM forms (stays_declared stays name)).bind fun params => ?_
  refine (stays_typeNamed stays result).bind fun resultType => ?_
  dsimp only
  split
  · exact stays_throw _
  · refine (stays_payload _).bind fun _ => stays_modify fun store => ?_
    exact (store.frame_assign scope name _).trans (.of_scopes rfl)

private theorem stays_define (head code : Expr) :
    Stays (· = scope) (define evaluate scope head code) := by
  unfold define
  split
  · split
    · exact stays_throw _
    · exact (stays code scope).bind fun value => stays_modify fun store =>
        store.frame_assign scope _ value
  · exact stays_defineFunction stays _ _ _ code
  · exact stays_throw _

private theorem stays_callClosure {writable : Nat → Prop} (instances : Instances) (home : Nat)
    (code : Expr) (result : Term) (args : Bound) :
    Stays writable (callClosure instances evaluate home code result args) := by
  refine stays_inChild home fun inner => ?_
  refine (stays_forM args fun arg => ?_).bind fun _ => (stays code inner).bind fun outcome =>
    (stays_typing _ _).bind fun coerced => stays_pure _
  split
  · exact stays_modify fun store => store.frame_assign inner _ _
  · exact stays_pure _

private theorem stays_runHost (args : Bound) (implicits : List Evidence) (recipe : Recipe) :
    Stays (· = scope) (runHost evaluate scope args implicits recipe) := by
  cases recipe with
  | all => exact stays_pure _
  | pick arg => exact stays_payload _
  | types => exact stays_pure _
  | implicits => exact stays_pure _
  | cast k arg => exact stays_payload _
  | combine k a b => exact stays_payload _
  | invert k arg => exact stays_payload _
  | zero k => exact stays_payload _
  | evaluate arg =>
    exact (stays_payload _).bind fun p => (stays_codeOf p).bind fun code =>
      (stays code scope).bind fun value => stays_pure value.payload
  | fail text => exact stays_throw _

private theorem stays_runBody (instances : Instances) (fn : Function) (args : Bound)
    (implicits : List Evidence) :
    Stays (· = scope) (runBody instances evaluate fn scope args implicits) := by
  unfold runBody
  split
  · exact stays_payload _
  · exact stays_payload _
  · exact stays_pure _
  · exact stays_payload _
  · exact stays_payload _
  · exact (stays_codeOf _).bind fun head => (stays_codeOf _).bind fun code =>
      (stays_define stays head code).bind fun _ => stays_pure _
  · exact stays_pure _
  · exact stays_runHost stays args implicits _
  · exact stays_callClosure stays instances _ _ _ args
  · exact stays_throw _

omit stays in
private theorem stays_call {writable : Nat → Prop} {instances : Instances} {fn : Function}
    (body : ∀ args implicits,
      Stays writable (runBody instances evaluate fn scope args implicits)) (args : Bound) :
    Stays writable (call instances evaluate fn args scope) := by
  have check : Stays writable (checkCall instances fn args) :=
    (stays_typing _ _).bind fun checked => (stays_reporting _).bind fun found => stays_pure _
  have checked : Stays writable (callChecked instances evaluate fn args scope) :=
    check.bind fun done => (body done.1.1 done.2.2).bind fun payload => stays_pure _
  exact (stays_tell _).bind fun _ => checked.nested.bind fun value =>
    (stays_tell _).bind fun _ => stays_pure value

private theorem stays_argument (instances : Instances) (slots : Assignment Actual) (param : Param) :
    Stays (· = scope) (argument instances evaluate scope slots param) := by
  have gather (values : List Value) : Stays (· = scope)
      (if param.arity.isVariadic then do
        return (param, some (← Evaluating.reporting (liftList instances values)))
      else return (param, values.head?)) := by
    split
    · exact (stays_reporting _).bind fun value => stays_pure _
    · exact stays_pure _
  unfold argument
  dsimp only
  by_cases quoted : param.quoted
  · rw [if_pos quoted, pure_bind]
    exact gather _
  · rw [if_neg quoted]
    exact (stays_mapM _ fun e => stays e scope).bind gather

private theorem stays_evaluateStep (instances : Instances) :
    Evaluate.Stays (evaluateStep instances evaluate) := by
  intro e scope
  unfold evaluateStep
  split
  · exact stays_pure _
  · exact stays_pure _
  · exact stays_pure _
  · exact stays_pure _
  · split
    · exact stays_throw _
    · exact stays_fetch _ scope
  · exact stays_throw _
  · next head rest =>
    refine (stays head scope).bind fun callee => ?_
    split
    · next fn _ =>
      have matched : Stays (· = scope) (matchCall fn rest) := by
        unfold matchCall
        split
        · exact stays_pure _
        · exact stays_throw _
      exact matched.bind fun slots => (stays_mapM _ (stays_argument stays instances slots)).bind
        fun args => stays_call (stays_runBody stays instances fn) args
    · exact stays_throw _

end Steps

private theorem stays_evaluateWithin (instances : Instances) (depth : Nat) :
    Evaluate.Stays (evaluateWithin instances depth) := by
  induction depth with
  | zero => exact fun _ _ => stays_throw _
  | succ depth ih => exact stays_evaluateStep ih instances

/-- Evaluation writes only to the scope it is given, however deep it goes and however it ends: all
other scopes that were there are as they were, and this one keeps its parent and its names. A call of
a defined function changes none of the scopes that were there, neither that of the caller nor that of
the definition. -/
theorem evaluation_writes_one_scope (instances : Instances) (depth : Nat) (store : Store)
    (scope : Nat) :
    (∀ e, let after := (evaluateWithin instances depth e scope).left store
      (∀ (id : Nat) (old : Scope), id ≠ scope → store.scopes[id]? = some old →
        after.scopes[id]? = some old) ∧
      ∀ old : Scope, store.scopes[scope]? = some old →
        ∃ new : Scope, after.scopes[scope]? = some new ∧ new.parent = old.parent ∧
          ∀ name, old.get? name ≠ none → new.get? name ≠ none) ∧
    ∀ (fn : Function) home code args, fn.body = .closure home code →
      let after := (call instances (evaluateWithin instances depth) fn args scope).left store
      ∀ (id : Nat) (old : Scope), store.scopes[id]? = some old → after.scopes[id]? = some old := by
  have stays := stays_evaluateWithin instances depth
  constructor
  · intro e after
    have frame := stays e scope store
    refine ⟨frame.untouched, fun old found => ?_⟩
    obtain ⟨new, here, keeps⟩ := frame.kept scope old found
    exact ⟨new, here, keeps.parent, keeps.names⟩
  · intro fn home code args closure after id old found
    have body : ∀ args implicits, Stays (fun _ => False)
        (runBody instances (evaluateWithin instances depth) fn scope args implicits) := by
      intro args implicits
      rw [runBody, closure]
      exact stays_callClosure stays instances home code fn.result args
    exact (stays_call body args store).untouched id old (fun here => here) found

/-- A function that defines `y` binds it in the scope of the call, where no other scope sees it. -/
example :
    let program : Evaluating Value := do
      let _ ← evaluate (Standard.instances false) (.seq [.atom "define",
        .seq [.atom "f", .seq [.atom "x", .atom "Rational"], .atom "Unit"],
        .seq [.atom "define", .atom "y", .atom "x"]]) 0
      evaluate (Standard.instances false) (.seq [.atom "f", .integer 2]) 0
    let after := program.left (Standard.store .quiet)
    (after.fetch? 0 "y").isSome = false ∧ (after.fetch? 1 "y").isSome = true := by
  decide +kernel

end TypedCalls
