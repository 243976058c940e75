import TypedCalls.Instance.Basic
import TypedCalls.Typer.Unify

/-!
Instance resolution by best-first search.

Given a batch of goals, find an instance for every goal, and for every dependency that those
instances have in turn, such that all the types agree; then build the evidence bottom up.

States are taken in order of depth plus number of outstanding goals, and in order of arrival among
equals. Every outstanding goal is tried against every instance for its head, goals with fewer
arguments and instances with fewer dependencies first. Each instance works on the typer of the state
it is tried in, so a refused one leaves no trace in another. The first state without goals wins.

A goal is known by the term it was created with, so goals created alike share one choice. An
instance that would make some goal equal to one of its own ancestors is pruned.
-/

set_option autoImplicit false

namespace TypedCalls

/-- A goal as created, as known now, and its ancestors, the nearest last. -/
structure Goal where
  key : Term
  current : Term
  path : List Term
  deriving DecidableEq, Repr

/-- The instance chosen for a goal, and the keys of the goals it brings. -/
structure Choice (β : Type) where
  inst : Instance β
  subgoals : List Term

abbrev Choices (β : Type) := List (Term × Choice β)

/-- A state of the search; `depth` counts the instances applied so far. -/
structure SearchState (β : Type) where
  depth : Nat
  goals : List Goal
  typer : Typer
  chosen : Choices β

/-- Why goals are not met. -/
inductive ResolveFailure where
  | noInstance (goals : List Term)
  | cyclic (goals path : List Term)
  | unbuilt (goals : List Term)
  | notApplied (goal : Term)
  | tooDeep
  deriving DecidableEq, Repr

/-- What is said of goals that are not met. -/
def ResolveFailure.message : ResolveFailure → String
  | .noInstance goals => "No instance found for " ++ Term.renderList goals ++ "."
  | .cyclic goals path =>
    "Every way to satisfy " ++ Term.renderList goals ++ " depends on itself: " ++
      " <- ".intercalate (path.map Term.render) ++ "."
  | .unbuilt goals => "No evidence was built for " ++ Term.renderList goals ++ "."
  | .notApplied goal => "'" ++ goal.kind ++ "' object has no attribute 'args'"
  | .tooDeep => "Resolution went too deep."

abbrev Resolving := EStateM ResolveFailure Report

variable {β : Type}

namespace Choices

def insert (chosen : Choices β) (key : Term) (choice : Choice β) : Choices β :=
  match chosen with
  | [] => [(key, choice)]
  | (k, c) :: rest =>
    if k = key then (key, choice) :: rest else (k, c) :: insert rest key choice

/-- The choice for a key. -/
def get? (chosen : Choices β) (key : Term) : Option (Choice β) := chosen.lookup key

theorem get?_insert (chosen : Choices β) (key k : Term) (choice : Choice β) :
    (chosen.insert key choice).get? k = if k = key then some choice else chosen.get? k := by
  induction chosen with
  | nil =>
    by_cases h : k = key
    · simp [insert, get?, h]
    · simp [insert, get?, List.lookup_cons, beq_false_of_ne h, h]
  | cons entry rest ih =>
    obtain ⟨first, old⟩ := entry
    simp only [get?] at ih ⊢
    by_cases h : first = key
    · subst h
      by_cases hk : k = first
      · simp [insert, hk]
      · simp [insert, List.lookup_cons, beq_false_of_ne hk, hk]
    · rw [insert, if_neg h, List.lookup_cons, List.lookup_cons, ih]
      by_cases hk : k = first
      · simp [hk, h]
      · rw [beq_false_of_ne hk]

/-- The evidence for a key, built from the evidence for the keys its choice brings, through at most
`n` choices. -/
def evidence (chosen : Choices β) : Nat → Term → Option β
  | 0, _ => none
  | n + 1, key =>
    match chosen.get? key with
    | none => none
    | some choice => (choice.subgoals.mapM (evidence chosen n)).map choice.inst.build

/-- What must never happen while evidence is put together. -/
inductive AssemblyFault where
  | cyclic (component : List Term)
  | missing
  deriving DecidableEq

/-- The evidence for the one key of a component, from what was built before. A component of several
keys, or of one that its own choice brings, is a cycle. -/
def assembleOne (chosen : Choices β) (built : List (Term × β)) :
    List Term → Except AssemblyFault (Term × β)
  | [] => .error .missing
  | key :: others =>
    match chosen.get? key with
    | none => .error .missing
    | some choice =>
      if others ≠ [] ∨ key ∈ choice.subgoals then .error (.cyclic (key :: others))
      else
        match choice.subgoals.mapM (List.lookup · built) with
        | none => .error .missing
        | some values => .ok (key, choice.inst.build values)

def assemble (chosen : Choices β) :
    List (List Term) → List (Term × β) → Except AssemblyFault (List (Term × β))
  | [], built => .ok built
  | component :: components, built => do
    let entry ← chosen.assembleOne built component
    chosen.assemble components (entry :: built)

/-- The evidence for goals, put together component by component. -/
def buildAlong (chosen : Choices β) (components : List (List Term)) (goals : List Term) :
    Except AssemblyFault (List β) := do
  let built ← chosen.assemble components []
  match goals.mapM (List.lookup · built) with
  | none => .error .missing
  | some values => .ok values

end Choices

namespace SearchState

def score (state : SearchState β) : Nat := state.depth + state.goals.length

def start (typer : Typer) (goals : List Term) : SearchState β :=
  ⟨0, goals.map fun g => ⟨g, g, []⟩, typer, []⟩

end SearchState

namespace Resolution

def selections {α : Type} : List α → List (α × List α)
  | [] => []
  | x :: xs => (x, xs) :: (selections xs).map fun sel => (sel.1, x :: sel.2)

def takeLeast : List (SearchState β) → Option (SearchState β × List (SearchState β))
  | [] => none
  | s :: rest =>
    let least := rest.foldl (fun m t => min m t.score) s.score
    match (s :: rest).span fun t => t.score != least with
    | (before, t :: after) => some (t, before ++ after)
    | (_, []) => none

def cycleOf (typer : Typer) (goal : Goal) : Option (List Term) :=
  match goal.path.dropWhile fun ancestor => typer.read ancestor ≠ goal.current with
  | [] => none
  | path => some (path ++ [goal.current])

def findCycle (typer : Typer) (goals : List Goal) : Option (List Term) :=
  goals.findSome? (cycleOf typer)

/-- What came of trying an instance for a goal. -/
inductive Attempt (β : Type) where
  | refused
  | pruned (cycle : List Term)
  | opened (state : SearchState β)

/-- The state after an instance has been applied to a goal, in a typer that knows they agree. -/
def advance (state : SearchState β) (goal : Goal) (rest : List Goal) (inst : Instance β)
    (dependencies : List Term) (typer : Typer) : SearchState β :=
  let subgoals := (dependencies.map typer.read).map fun d =>
    (⟨d, d, goal.path ++ [goal.current]⟩ : Goal)
  let refreshed := rest.map fun g => { g with current := typer.read g.current }
  { depth := state.depth + 1
    goals := refreshed ++ subgoals
    typer := typer
    chosen := state.chosen.insert goal.key ⟨inst, subgoals.map Goal.key⟩ }

/-- Try an instance for one of the goals of a state. -/
def attempt (state : SearchState β) (goal : Goal) (rest : List Goal) (inst : Instance β) :
    Resolving (Attempt β) := fun report =>
  let made := state.typer.freshFor .unification inst.rule.typeParams
  let dependencies := inst.rule.dependencies.map (Term.subst made.1)
  match Typing.unify goal.current (inst.rule.returns.subst made.1) (.start made.2 report) with
  | .error .tooDeep s => .error .tooDeep s.report
  | .error (.clash _) s => .ok .refused s.report
  | .ok () s =>
    let next := advance state goal rest inst dependencies s.typer
    match findCycle s.typer next.goals with
    | some cycle =>
      .ok (.pruned cycle) (s.report.tell fun _ =>
        ["prune", inst.rule.render, "for", goal.current.render, "(cycle)"])
    | none =>
      .ok (.opened next) (s.report.tell fun _ =>
        ["try", inst.rule.render, "for", goal.current.render])

/-- What is known after some attempts: the states opened, in order, the first cycle pruned, and
whether some goal had no instance that agrees with it. -/
structure Findings (β : Type) where
  opened : List (SearchState β)
  cycle : Option (List Term)
  deadEnd : Bool

def viable : Attempt β → Bool
  | .refused => false
  | .pruned _ => true
  | .opened _ => true

/-- Sum up the attempts at one goal. -/
def Findings.ofAttempts (attempts : List (Attempt β)) : Findings β where
  opened := attempts.filterMap fun
    | .opened state => some state
    | _ => none
  cycle := attempts.findSome? fun
    | .pruned cycle => some cycle
    | _ => none
  deadEnd := !attempts.any viable

def Findings.append (first second : Findings β) : Findings β where
  opened := first.opened ++ second.opened
  cycle := first.cycle.or second.cycle
  deadEnd := first.deadEnd || second.deadEnd

def Findings.none : Findings β := ⟨[], .none, false⟩

def expandGoal (registry : Registry β) (state : SearchState β) (goal : Goal) (rest : List Goal) :
    Resolving (Findings β) := do
  return .ofAttempts (← (registry.candidatesFor goal.current).mapM (attempt state goal rest))

def expand (registry : Registry β) (state : SearchState β) : Resolving (Findings β) := do
  if let some goal := state.goals.find? fun goal => goal.current.head?.isNone then
    throw (.notApplied goal.current)
  let ordered := sortedBy (fun goal => goal.current.arguments.length) state.goals
  let found ← (selections ordered).mapM fun sel => expandGoal registry state sel.1 sel.2
  return found.foldl .append .none

/-- How a search ends, after so many expansions: with a state that has no goals left, or without one.
Then `waiting` are the states that were never looked at. -/
inductive Ending (β : Type) where
  | won (expansions : Nat) (state : SearchState β)
  | lost (expansions : Nat) (waiting : List (SearchState β)) (cycle : Option (List Term))
      (deadEnd : Bool)

/-- Take up to `n` more states, after so many already. -/
def search (registry : Registry β) :
    (n expansions : Nat) → (waiting : List (SearchState β)) → (cycle : Option (List Term)) →
    (deadEnd : Bool) → Resolving (Ending β)
  | 0, expansions, waiting, cycle, deadEnd => return .lost expansions waiting cycle deadEnd
  | n + 1, expansions, waiting, cycle, deadEnd =>
    match takeLeast waiting with
    | none => return .lost expansions waiting cycle deadEnd
    | some (state, others) =>
      if state.goals.isEmpty then return .won (expansions + 1) state
      else do
        let found ← expand registry state
        search registry n (expansions + 1) (others ++ found.opened)
          (cycle.or found.cycle) (deadEnd || found.deadEnd)

/-- Build the evidence of the winning state, or say why there is none. -/
def conclude (goals : List Term) : Ending β → Resolving (Typer × List β)
  | .won expansions state => do
    modify fun report => report.tell fun _ =>
      ["solved after", toString expansions, "expansions"]
    match goals.mapM (state.chosen.evidence state.chosen.length) with
    | some values => return (state.typer, values)
    | none => throw (.unbuilt goals)
  | .lost expansions waiting cycle deadEnd => do
    if !waiting.isEmpty then
      modify fun report => report.tell fun _ =>
        ["gave up after", toString expansions, "expansions"]
      throw (.noInstance goals)
    match cycle with
    | some path => throw (if deadEnd then .noInstance goals else .cyclic goals path)
    | none => throw (.noInstance goals)

def maxExpansions : Nat := 300

end Resolution

/-- Search for a way to meet all goals, looking at no more than `limit` states. -/
def Registry.explore (registry : Registry β) (limit : Nat) (typer : Typer) (goals : List Term) :
    Resolving (Resolution.Ending β) := do
  modify fun report => report.tell fun _ => ["resolve", Term.renderList goals]
  Resolution.search registry limit 0 [.start typer goals] none false

/-- Meet all goals, looking at no more than `limit` states. The answer is the typer of the winning
state and one piece of evidence per goal. -/
def Registry.resolve (registry : Registry β) (limit : Nat) (typer : Typer) (goals : List Term) :
    Resolving (Typer × List β) := do
  if goals.isEmpty then return (typer, [])
  Resolution.conclude goals (← registry.explore limit typer goals)

end TypedCalls
