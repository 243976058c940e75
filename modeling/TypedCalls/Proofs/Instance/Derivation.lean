import Mathlib.Data.List.Forall2
import TypedCalls.Proofs.Instance.Opening

/-!
Derivations: finite trees of instances, each with what its type parameters stand for.

When a derivation meets a goal depends on what it takes for a type to agree with a goal: to read
alike in a typer, or to be equal under a substitution.
-/

set_option autoImplicit false

namespace TypedCalls

/-- An instance, what its type parameters stand for, and what its dependencies are met by. -/
inductive Derivation (β : Type) where
  | node (inst : Instance β) (σ : TypeVar → Term) (parts : List (Derivation β))

namespace Derivation

variable {β : Type}

@[elab_as_elim]
theorem induct {motive : Derivation β → Prop}
    (node : ∀ inst σ parts, (∀ d ∈ parts, motive d) → motive (.node inst σ parts))
    (d : Derivation β) : motive d :=
  @Derivation.rec β motive (fun ds => ∀ d ∈ ds, motive d) node (fun _ h => nomatch h)
    (fun _ _ head tail d h => by
      cases h with
      | head => exact head
      | tail _ h => exact tail d h) d

mutual

/-- What the builders give, bottom up. -/
def value : Derivation β → β
  | .node inst _ parts => inst.build (values parts)

def values : List (Derivation β) → List β
  | [] => []
  | d :: ds => d.value :: values ds

end

mutual

def nodes : Derivation β → Nat
  | .node _ _ parts => nodesAll parts + 1

def nodesAll : List (Derivation β) → Nat
  | [] => 0
  | d :: ds => d.nodes + nodesAll ds

end

mutual

/-- The root is a registered instance that returns what agrees with the goal, and its parts meet its
dependencies in order, with the same terms for the type parameters. -/
def Meets (registry : Registry β) (agree : Term → Term → Prop) : Derivation β → Term → Prop
  | .node inst σ parts, goal =>
    inst ∈ registry ∧ agree (inst.rule.specialize σ inst.rule.returns) goal ∧
      MeetAll registry agree parts (inst.rule.dependencies.map (inst.rule.specialize σ))

def MeetAll (registry : Registry β) (agree : Term → Term → Prop) :
    List (Derivation β) → List Term → Prop
  | [], [] => True
  | [], _ :: _ => False
  | _ :: _, [] => False
  | d :: ds, goal :: goals => Meets registry agree d goal ∧ MeetAll registry agree ds goals

end

theorem values_eq_map (ds : List (Derivation β)) : values ds = ds.map value := by
  induction ds with
  | nil => rfl
  | cons d ds ih => rw [values, ih, List.map_cons]

theorem meetAll_iff {registry : Registry β} {agree : Term → Term → Prop}
    {ds : List (Derivation β)} {goals : List Term} :
    MeetAll registry agree ds goals ↔ List.Forall₂ (Meets registry agree) ds goals := by
  induction ds generalizing goals with
  | nil => cases goals <;> simp [MeetAll]
  | cons d ds ih => cases goals <;> simp [MeetAll, ih]

end Derivation

end TypedCalls
