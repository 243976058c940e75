import TypedCalls.Eval.Evaluator
import TypedCalls.Proofs.Succeeding

/-!
Steps of an evaluation that never bind a bad value.

The bound values are good before a safe step and after it, whether it succeeds or fails, and what it
returns satisfies a postcondition. One bind lemma composes safe steps.
-/

set_option autoImplicit false

namespace TypedCalls

variable {good : Value → Prop}

def Store.All (good : Value → Prop) (store : Store) : Prop :=
  ∀ (id : Nat) (scope : Scope), store.scopes[id]? = some scope → ∀ entry ∈ scope.names, good entry.2

namespace Scope

private theorem mem_assignIn {names : List (String × Value)} {name : String} {value : Value}
    {entry : String × Value} (member : entry ∈ assignIn names name value) :
    entry ∈ names ∨ entry = (name, value) := by
  induction names with
  | nil => exact .inr (List.mem_singleton.mp member)
  | cons first rest ih =>
    rw [assignIn] at member
    split at member
    · exact (List.mem_cons.mp member).elim .inr fun later => .inl (List.mem_cons_of_mem _ later)
    · rcases List.mem_cons.mp member with rfl | later
      · exact .inl (List.mem_cons_self ..)
      · exact (ih later).imp_left (List.mem_cons_of_mem _)

private theorem mem_of_get? {scope : Scope} {name : String} {value : Value}
    (found : scope.get? name = some value) : (name, value) ∈ scope.names := by
  obtain ⟨before, after, names, -⟩ := List.lookup_eq_some_iff.mp found
  rw [names]
  exact List.mem_append_right _ (List.mem_cons_self ..)

end Scope

namespace Store

variable {store : Store}

theorem all_empty (report : Report) : (empty report).All good := by
  intro id scope found entry member
  obtain rfl : scope = ⟨none, []⟩ := by simpa [empty] using Array.mem_of_getElem? found
  cases member

theorem All.assign (all : store.All good) (id : Nat) (name : String) {value : Value}
    (here : good value) : (store.assign id name value).All good := by
  intro other scope found entry member
  rw [Store.assign, Array.getElem?_modify] at found
  split at found
  · obtain ⟨before, was, rfl⟩ := Option.map_eq_some_iff.mp found
    rcases Scope.mem_assignIn member with old | rfl
    · exact all other before was entry old
    · exact here
  · exact all other scope found entry member

theorem All.child (all : store.All good) (parent : Nat) : (store.child parent).2.All good := by
  intro id scope found entry member
  rw [Store.child, Array.getElem?_push] at found
  split at found
  · cases found
    cases member
  · exact all id scope found entry member

private theorem mem_around {n id : Nat} {scope : Scope} (member : scope ∈ store.around n id) :
    ∃ i : Nat, store.scopes[i]? = some scope := by
  induction n generalizing id with
  | zero => cases member
  | succ n ih =>
    rw [around] at member
    split at member
    · cases member
    · next first found =>
      rcases List.mem_cons.mp member with rfl | outer
      · exact ⟨id, found⟩
      · split at outer
        · cases outer
        · exact ih outer

private theorem All.fetch? (all : store.All good) {id : Nat} {name : String} {value : Value}
    (found : store.fetch? id name = some value) : good value := by
  obtain ⟨scope, member, bound⟩ := List.exists_of_findSome?_eq_some found
  obtain ⟨i, inside⟩ := mem_around member
  exact all i scope inside _ (Scope.mem_of_get? bound)

end Store

namespace Evaluating

variable {α β : Type}

/-- All bound values are good in the end, and what was returned satisfies a condition. -/
inductive Lands (good : Value → Prop) (P : α → Prop) :
    EStateM.Result EvalError Store α → Prop
  | ok {a : α} {store : Store} : P a → store.All good → Lands good P (.ok a store)
  | error {failure : EvalError} {store : Store} : store.All good →
      Lands good P (.error failure store)

/-- From good bound values the step comes to good bound values, and what it returns satisfies a
condition. -/
def Safe (good : Value → Prop) (m : Evaluating α) (P : α → Prop) : Prop :=
  ∀ store, store.All good → Lands good P (m store)

variable {m : Evaluating α} {P : α → Prop}

theorem safe_pure {a : α} (holds : P a) : Safe good (pure a) P :=
  fun _ all => .ok holds all

theorem safe_throw (failure : EvalError) : Safe good (throw failure : Evaluating α) P :=
  fun _ all => .error all

theorem safe_modify {f : Store → Store} (keeps : ∀ store, store.All good → (f store).All good) :
    Safe good (modify f) fun _ => True :=
  fun store all => .ok trivial (keeps store all)

theorem safe_modifyGet {f : Store → α × Store}
    (keeps : ∀ store, store.All good → (f store).2.All good) :
    Safe good (modifyGet f) fun _ => True :=
  fun store all => .ok trivial (keeps store all)

private theorem safe_get {next : Store → Evaluating α}
    (lands : ∀ store, store.All good → Lands good P (next store store)) :
    Safe good (get >>= next) P :=
  fun store all => lands store all

theorem Safe.bind {next : α → Evaluating β} {Q : β → Prop} (first : Safe good m P)
    (second : ∀ a, P a → Safe good (next a) Q) : Safe good (m >>= next) Q := by
  intro store all
  have landed := first store all
  show Lands good Q (EStateM.bind m next store)
  unfold EStateM.bind
  generalize m store = result at landed
  cases landed with
  | ok holds all' => exact second _ holds _ all'
  | error all' => exact .error all'

theorem safe_mapM {f : α → Evaluating β} {R : α → β → Prop} {xs : List α}
    (each : ∀ x ∈ xs, Safe good (f x) (R x)) : Safe good (xs.mapM f) (List.Forall₂ R xs) := by
  induction xs with
  | nil =>
    rw [List.mapM_nil]
    exact safe_pure .nil
  | cons x xs ih =>
    obtain ⟨first, rest⟩ := List.forall_mem_cons.mp each
    rw [List.mapM_cons]
    refine first.bind fun y here => (ih rest).bind fun ys there => safe_pure (.cons here there)

theorem safe_forM {f : α → Evaluating PUnit} {xs : List α}
    (each : ∀ x ∈ xs, Safe good (f x) fun _ => True) : Safe good (xs.forM f) fun _ => True := by
  induction xs with
  | nil => exact safe_pure trivial
  | cons x xs ih =>
    obtain ⟨first, rest⟩ := List.forall_mem_cons.mp each
    exact first.bind fun _ _ => ih rest

theorem safe_tell (words : Unit → List String) : Safe good (tell words) fun _ => True :=
  safe_modify fun _ all => all

theorem safe_reporting {work : Reporting α}
    (success : ∀ {a r r'}, work r = .ok a r' → P a) : Safe good (reporting work) P := by
  intro store all
  unfold reporting
  cases ran : work store.report with
  | ok a r => exact .ok (success ran) all
  | error e r => exact .error all

theorem safe_typing {typer : Typer} {work : Coercing α} {Q : α × Typer → Prop}
    (success : ∀ {r a s}, work (.start typer r) = .ok a s → Q (a, s.typer)) :
    Safe good (typing typer work) Q := by
  intro store all
  unfold typing
  cases ran : work (.start typer store.report) with
  | ok a s => exact .ok (success ran) all
  | error e s => exact .error all

theorem Safe.nested (safe : Safe good m P) : Safe good (nested m) P := by
  intro store all
  have landed := safe { store with report := store.report.nest } all
  unfold Evaluating.nested
  generalize m { store with report := store.report.nest } = result at landed
  cases landed with
  | ok holds all' => exact .ok holds all'
  | error all' => exact .error all'

theorem safe_payload {result : Except ValueFault α} (success : ∀ {a}, result = .ok a → P a) :
    Safe good (payload result) P := by
  cases result with
  | ok a => exact safe_pure (success rfl)
  | error fault => exact safe_throw _

end Evaluating

theorem safe_fetch (name : String) (scope : Nat) :
    Evaluating.Safe good (fetch name scope) good := by
  refine Evaluating.safe_get fun store all => ?_
  cases found : store.fetch? scope name with
  | some value => exact .ok (all.fetch? found) all
  | none => exact .error all

end TypedCalls
