import Mathlib.Algebra.GroupWithZero.Nat
import Mathlib.Order.Lattice.Nat
import Mathlib.Tactic.Common
import TypedCalls.Proofs.Instance.Derivation

/-!
How many instances it takes to derive a type.

A substitution fixes the variables that no rule binds, and with them the types that can be derived.
A cheapest derivation has cheapest parts (`exists_cheapest`), so the cost falls along every branch of
it; a cheapest derivation never comes back to a type it set out to derive.
-/

set_option autoImplicit false

namespace TypedCalls

variable {β : Type}

mutual

/-- A type is derived by `n` applications of instances, where variables that are no type parameters
stand for what `θ` says. -/
inductive Derivable (registry : Registry β) (θ : TypeVar → Term) : Nat → Term → Prop
  | node {inst : Instance β} {ρ : TypeVar → Term} {n : Nat} : inst ∈ registry →
      (∀ v ∈ inst.rule.names, v ∉ inst.rule.typeParams → ρ v = θ v) →
      DerivableAll registry θ n (inst.rule.dependencies.map (Term.fill ρ)) →
      Derivable registry θ (n + 1) (inst.rule.returns.fill ρ)

/-- Several types are derived by `n` applications together. -/
inductive DerivableAll (registry : Registry β) (θ : TypeVar → Term) : Nat → List Term → Prop
  | nil : DerivableAll registry θ 0 []
  | cons {m n : Nat} {t : Term} {ts : List Term} : Derivable registry θ m t →
      DerivableAll registry θ n ts → DerivableAll registry θ (m + n) (t :: ts)

end

/-- Two terms are equal under a substitution. -/
def EqualUnder (θ : TypeVar → Term) (a b : Term) : Prop := a.fill θ = b.fill θ

section

variable {registry : Registry β} {θ θ' : TypeVar → Term}

theorem derivableAll_of_meetAll {ds : List (Derivation β)} {goals : List Term}
    (single : ∀ d ∈ ds, ∀ goal, d.Meets registry (EqualUnder θ) goal →
      Derivable registry θ d.nodes (goal.fill θ))
    (meetAll : Derivation.MeetAll registry (EqualUnder θ) ds goals) :
    DerivableAll registry θ (Derivation.nodesAll ds) (goals.map (Term.fill θ)) := by
  induction ds generalizing goals with
  | nil =>
    match goals, meetAll with
    | [], _ => exact .nil
  | cons d ds ih =>
    match goals, meetAll with
    | goal :: goals, ⟨here, there⟩ =>
      obtain ⟨first, others⟩ := List.forall_mem_cons.mp single
      exact .cons (first goal here) (ih others there)

theorem derivable_of_meets (rulesOver : registry.Over Term.QuantifierFree) {d : Derivation β}
    {goal : Term} (meets : d.Meets registry (EqualUnder θ) goal) :
    Derivable registry θ d.nodes (goal.fill θ) := by
  induction d using Derivation.induct generalizing goal with
  | node inst σ parts ih =>
    obtain ⟨registered, agree, meetAll⟩ := meets
    obtain ⟨free, -⟩ := rulesOver inst registered
    have dependencies := derivableAll_of_meetAll (fun d member _ meets => ih d member meets) meetAll
    have filled : (inst.rule.dependencies.map (inst.rule.specialize σ)).map (Term.fill θ) =
        inst.rule.dependencies.map
          (Term.fill fun v => if v ∈ inst.rule.typeParams then (σ v).fill θ else θ v) := by
      rw [List.map_map]
      apply List.map_congr_left
      intro t dependency
      exact inst.rule.fill_specialize σ θ (free t (List.mem_cons_of_mem _ dependency))
    rw [filled] at dependencies
    rw [← agree, inst.rule.fill_specialize σ θ (free _ (List.mem_cons_self ..))]
    exact .node registered (fun v _ outside => if_neg outside) dependencies

mutual

theorem Derivable.congr
    (agree : ∀ inst ∈ registry, ∀ v ∈ inst.rule.names, v ∉ inst.rule.typeParams → θ' v = θ v)
    {n : Nat} {t : Term} : Derivable registry θ n t → Derivable registry θ' n t
  | .node registered outside parts =>
    .node registered (fun v named free => (outside v named free).trans
      (agree _ registered v named free).symm) (DerivableAll.congr agree parts)

theorem DerivableAll.congr
    (agree : ∀ inst ∈ registry, ∀ v ∈ inst.rule.names, v ∉ inst.rule.typeParams → θ' v = θ v)
    {n : Nat} {ts : List Term} : DerivableAll registry θ n ts → DerivableAll registry θ' n ts
  | .nil => .nil
  | .cons first others => .cons (first.congr agree) (others.congr agree)

end

theorem DerivableAll.each {n : Nat} {ts : List Term} (derivable : DerivableAll registry θ n ts) :
    ∀ t ∈ ts, ∃ k, Derivable registry θ k t := by
  induction ts generalizing n with
  | nil => exact nofun
  | cons t ts ih =>
    cases derivable with
    | cons first others => exact List.forall_mem_cons.mpr ⟨⟨_, first⟩, ih others⟩

noncomputable def leastCost (registry : Registry β) (θ : TypeVar → Term) (t : Term) : Nat :=
  sInf { n | Derivable registry θ n t }

private theorem leastCost_le {n : Nat} {t : Term} (derivable : Derivable registry θ n t) :
    leastCost registry θ t ≤ n :=
  Nat.sInf_le derivable

private theorem derivable_leastCost {n : Nat} {t : Term} (derivable : Derivable registry θ n t) :
    Derivable registry θ (leastCost registry θ t) t :=
  Nat.sInf_mem (s := { n | Derivable registry θ n t }) ⟨n, derivable⟩

theorem DerivableAll.sum_leastCost_le {n : Nat} {ts : List Term}
    (derivable : DerivableAll registry θ n ts) : (ts.map (leastCost registry θ)).sum ≤ n := by
  induction ts generalizing n with
  | nil => exact Nat.zero_le n
  | cons t ts ih =>
    cases derivable with
    | cons first others =>
      rw [List.map_cons, List.sum_cons]
      exact Nat.add_le_add (leastCost_le first) (ih others)

/-- A type that can be derived is returned by an instance whose dependencies can be derived, at the
cost of one application more than they cost together. -/
theorem exists_cheapest {n : Nat} {t : Term} (derivable : Derivable registry θ n t) :
    ∃ inst ∈ registry, ∃ ρ : TypeVar → Term,
      (∀ v ∈ inst.rule.names, v ∉ inst.rule.typeParams → ρ v = θ v) ∧
      inst.rule.returns.fill ρ = t ∧
      (∀ d ∈ inst.rule.dependencies, ∃ m, Derivable registry θ m (d.fill ρ)) ∧
      (inst.rule.dependencies.map fun d => leastCost registry θ (d.fill ρ)).sum + 1 ≤
        leastCost registry θ t := by
  have least := derivable_leastCost derivable
  generalize cost : leastCost registry θ t = k at least
  cases least with
  | @node inst ρ n registered outside parts =>
    refine ⟨inst, registered, ρ, outside, rfl, fun d dependency => ?_, ?_⟩
    · exact parts.each _ (List.mem_map.mpr ⟨d, dependency, rfl⟩)
    · have sum := parts.sum_leastCost_le
      rw [List.map_map] at sum
      exact Nat.succ_le_succ sum

end

end TypedCalls
