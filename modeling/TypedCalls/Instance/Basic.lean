import TypedCalls.SortedBy
import TypedCalls.Term.Printer

/-!
Rules that say how a goal is met, and registries of them. An instance is a rule together with the
way its evidence is built from the evidence for its dependencies.
-/

set_option autoImplicit false

namespace TypedCalls

/-- For all `typeParams`, meeting every one of `dependencies` meets `returns`. -/
structure Rule where
  typeParams : List TypeVar
  dependencies : List Term
  returns : Term
  deriving DecidableEq, Repr

def Rule.render (rule : Rule) : String :=
  (if rule.typeParams.isEmpty then "" else "∀ " ++ Term.varNames rule.typeParams ++ ". ") ++
    (if rule.dependencies.isEmpty then "" else Term.renderList rule.dependencies ++ " -> ") ++
    rule.returns.render

/-- A rule with a builder, which receives the evidence for the dependencies in order. -/
structure Instance (β : Type) where
  rule : Rule
  build : List β → β

/-- Why a rule cannot be used: goals are applied constructors. -/
inductive RuleFault where
  | returns (t : Term)
  | dependencies (ts : List Term)
  deriving DecidableEq, Repr

def RuleFault.message : RuleFault → String
  | .returns t => t.render
  | .dependencies ts => "[" ++ Term.renderList ts ++ "]"

/-- Check that a rule returns and depends on applied constructors only. -/
def Rule.checked (rule : Rule) : Except RuleFault Rule :=
  if rule.returns.head?.isNone then .error (.returns rule.returns)
  else if rule.dependencies.any fun d => d.head?.isNone then
    .error (.dependencies rule.dependencies)
  else .ok rule

/-- Instances in order of registration. -/
abbrev Registry (β : Type) := List (Instance β)

namespace Registry

variable {β : Type}

def offers (head : String) (inst : Instance β) : Bool :=
  inst.rule.returns.head? == some head

def candidates (registry : Registry β) (head : String) : List (Instance β) :=
  registry.filter (offers head)

def byHead (registry : Registry β) : List (Instance β) :=
  (registry.filterMap fun inst => inst.rule.returns.head?).eraseDups.flatMap registry.candidates

def candidatesFor (registry : Registry β) (goal : Term) : List (Instance β) :=
  match goal.head? with
  | none => []
  | some head => sortedBy (fun inst => inst.rule.dependencies.length) (registry.candidates head)

end Registry

def ambiguityMessage (goal : Term) (rules : List Rule) : String :=
  "Several instances could satisfy " ++ goal.render ++ ": " ++
    "; ".intercalate (rules.map Rule.render)

end TypedCalls
