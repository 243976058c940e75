import TypedCalls.Eval.Coercion
import TypedCalls.Text.Distance

/-!
Scopes and the store that holds them. A scope is known by its number; its parent was made before it.
-/

set_option autoImplicit false

namespace TypedCalls

/-- Names bound in one scope. -/
structure Scope where
  parent : Option Nat
  names : List (String × Value)
  deriving Inhabited

namespace Scope

def assignIn : List (String × Value) → String → Value → List (String × Value)
  | [], name, value => [(name, value)]
  | (n, v) :: rest, name, value =>
    if n = name then (name, value) :: rest else (n, v) :: assignIn rest name value

def assign (scope : Scope) (name : String) (value : Value) : Scope :=
  { scope with names := assignIn scope.names name value }

/-- What a name is bound to in this very scope. -/
def get? (scope : Scope) (name : String) : Option Value := scope.names.lookup name

theorem get?_assign (scope : Scope) (name other : String) (value : Value) :
    (scope.assign name value).get? other =
      if other = name then some value else scope.get? other := by
  obtain ⟨parent, names⟩ := scope
  simp only [get?, assign]
  induction names with
  | nil =>
    by_cases h : other = name
    · simp [assignIn, h]
    · simp [assignIn, List.lookup_cons, beq_false_of_ne h, h]
  | cons entry rest ih =>
    obtain ⟨first, old⟩ := entry
    by_cases h : first = name
    · subst h
      by_cases hk : other = first
      · simp [assignIn, hk]
      · simp [assignIn, List.lookup_cons, beq_false_of_ne hk, hk]
    · rw [assignIn, if_neg h, List.lookup_cons, List.lookup_cons, ih]
      by_cases hk : other = first
      · simp [hk, h]
      · rw [beq_false_of_ne hk]

end Scope

/-- All scopes made so far, the number of functions made so far, and the report. -/
structure Store where
  scopes : Array Scope
  functions : Nat
  report : Report
  deriving Inhabited

namespace Store

def empty (report : Report) : Store := ⟨#[⟨none, []⟩], 0, report⟩

/-- A scope and those around it, the innermost first, at most `n` of them. -/
def around (store : Store) : Nat → Nat → List Scope
  | 0, _ => []
  | n + 1, id =>
    match store.scopes[id]? with
    | none => []
    | some scope =>
      scope :: (match scope.parent with
        | none => []
        | some parent => around store n parent)

def chain (store : Store) (id : Nat) : List Scope := store.around store.scopes.size id

/-- What a name is bound to, as seen from a scope. -/
def fetch? (store : Store) (id : Nat) (name : String) : Option Value :=
  (store.chain id).findSome? fun scope => scope.get? name

def visibleNames (store : Store) (id : Nat) : List String :=
  ((store.chain id).flatMap fun scope => scope.names.map Prod.fst).eraseDups

def sortedNames (store : Store) (id : Nat) : List String := (store.visibleNames id).mergeSort

def assign (store : Store) (id : Nat) (name : String) (value : Value) : Store :=
  { store with scopes := store.scopes.modify id fun scope => scope.assign name value }

def child (store : Store) (parent : Nat) : Nat × Store :=
  (store.scopes.size, { store with scopes := store.scopes.push ⟨some parent, []⟩ })

def addFunction (store : Store) (id : Nat) (fn : Function) : Store :=
  { store.assign id fn.name ({ fn with id := store.functions } : Function).toValue with
    functions := store.functions + 1 }

end Store

abbrev Evaluating := EStateM EvalError Store

namespace Evaluating

def tell (words : Unit → List String) : Evaluating Unit :=
  modify fun store => { store with report := store.report.tell words }

def reporting {α : Type} (m : Reporting α) : Evaluating α := fun store =>
  match m store.report with
  | .ok a r => .ok a { store with report := r }
  | .error e r => .error e { store with report := r }

def typing {α : Type} (typer : Typer) (m : Coercing α) : Evaluating (α × Typer) := fun store =>
  match m (.start typer store.report) with
  | .ok a s => .ok (a, s.typer) { store with report := s.report }
  | .error e s => .error e { store with report := s.report }

def nested {α : Type} (m : Evaluating α) : Evaluating α := fun store =>
  match m { store with report := store.report.nest } with
  | .ok a s => .ok a { s with report := s.report.unnest }
  | .error e s => .error e { s with report := s.report.unnest }

def payload {α : Type} (result : Except ValueFault α) : Evaluating α :=
  match result with
  | .ok a => pure a
  | .error fault => throw (.payload fault)

end Evaluating

end TypedCalls
