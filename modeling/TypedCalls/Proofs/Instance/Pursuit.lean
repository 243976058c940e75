import Mathlib.Algebra.GroupWithZero.Nat
import Mathlib.Algebra.Order.BigOperators.Group.List
import Mathlib.Algebra.Order.Group.Nat
import Mathlib.Tactic.Common
import TypedCalls.Proofs.Instance.Renewal
import TypedCalls.Proofs.Instance.Search

/-!
A search with a plan.

A plan knows how to meet certain goals, and at what cost: it names the instance to start with, whose
dependencies it can meet more cheaply. Suppose the goals of a state can be met by a plan under some
solution of what the typer knows. Then the instance that the plan names for the first of them is one
of the candidates, unification lets it through, and the state it opens can be met by the plan without
extra cost (`OnTrack.advance`). Pruning lets it through too, because the cost falls along every path,
so that no goal on the way equals an ancestor (`OnTrack.findCycle_eq_none`). Hence a state that the
plan can complete is always waiting. Among the waiting states one with the least score is taken, and
no state on track has a score above the total cost.
-/

set_option autoImplicit false

namespace TypedCalls

open Problem
open Classes (Satisfies)

variable {β : Type}

/-- Where the substitution `ρ` for the variables of a rule makes it return a goal, out of dependencies
that can be met and that cost less. Variables that are no type parameters stand for what `θ` says. -/
structure Rule.Serves (meets : Term → Prop) (cost : Term → Nat) (θ : TypeVar → Term) (rule : Rule)
    (ρ : TypeVar → Term) (goal : Term) : Prop where
  outside : ∀ v ∈ rule.names, v ∉ rule.typeParams → ρ v = θ v
  intact : ∀ t ∈ rule.terms, t.Intact ρ
  returns : rule.returns.fill ρ = goal
  dependencies : ∀ d ∈ rule.dependencies, meets (d.fill ρ)
  cost : (rule.dependencies.map fun d => cost (d.fill ρ)).sum + 1 ≤ cost goal

/-- The goals that can be met, what each of them costs, and an instance to start with. -/
structure Plan (registry : Registry β) (θ : TypeVar → Term) where
  meets : Term → Prop
  cost : Term → Nat
  starts : ∀ goal, meets goal → ∃ inst ∈ registry, ∃ ρ, inst.rule.Serves meets cost θ ρ goal

variable {registry : Registry β} {θ₀ : TypeVar → Term}

private theorem Plan.cost_pos (plan : Plan registry θ₀) {goal : Term} (meets : plan.meets goal) :
    0 < plan.cost goal := by
  obtain ⟨inst, -, ρ, serves⟩ := plan.starts goal meets
  have cost := serves.cost
  omega

/-- A goal that the plan meets under `θ`, and that is cheaper than its ancestors. -/
structure Goal.OnTrack (plan : Plan registry θ₀) (c : Nat) (θ : TypeVar → Term) (g : Goal) :
    Prop where
  current : g.current.IntactWithin θ c
  path : ∀ p ∈ g.path, p.IntactWithin θ c
  meets : plan.meets (g.current.fill θ)
  falling : ∀ p ∈ g.path, plan.cost (g.current.fill θ) < plan.cost (p.fill θ)

def Plan.total (plan : Plan registry θ₀) (θ : TypeVar → Term) (goals : List Goal) : Nat :=
  (goals.map fun g => plan.cost (g.current.fill θ)).sum

/-- A state whose goals the plan meets under a solution of what its typer knows, with no more than
`bound` applications in all. -/
structure SearchState.OnTrack (plan : Plan registry θ₀) (bound : Nat) (θ : TypeVar → Term)
    (state : SearchState β) : Prop where
  rigid : state.typer.rigid = []
  sane : Sane (Term.IntactWithin θ state.typer.counter) state.typer.classes
  satisfies : Satisfies θ state.typer.classes
  names : ∀ inst ∈ registry, ∀ v ∈ inst.rule.names, θ v = θ₀ v
  goals : ∀ g ∈ state.goals, g.OnTrack plan state.typer.counter θ
  cost : state.depth + plan.total θ state.goals ≤ bound

section

variable {plan : Plan registry θ₀} {bound : Nat} {state : SearchState β} {θ θ' ρ : TypeVar → Term}

private theorem Plan.length_le_total {c : Nat} {goals : List Goal}
    (onTrack : ∀ g ∈ goals, g.OnTrack plan c θ) : goals.length ≤ plan.total θ goals := by
  induction goals with
  | nil => exact Nat.zero_le _
  | cons g goals ih =>
    obtain ⟨here, there⟩ := List.forall_mem_cons.mp onTrack
    have first := plan.cost_pos here.meets
    have others := ih there
    rw [total] at others ⊢
    rw [List.length_cons, List.map_cons, List.sum_cons]
    omega

theorem SearchState.OnTrack.score_le (onTrack : state.OnTrack plan bound θ) :
    state.score ≤ bound := by
  have each := Plan.length_le_total onTrack.goals
  have cost := onTrack.cost
  rw [score]
  omega

private theorem SearchState.OnTrack.findCycle_eq_none (onTrack : state.OnTrack plan bound θ) :
    Resolution.findCycle state.typer state.goals = none := by
  rw [Resolution.findCycle, List.findSome?_eq_none_iff]
  intro g member
  have new : ∀ p ∈ g.path, state.typer.read p ≠ g.current := by
    intro p inside equal
    have goal := onTrack.goals g member
    have lower := goal.falling p inside
    rw [← equal, Typer.read,
      onTrack.sane.fill_read onTrack.satisfies (goal.path p inside).1] at lower
    exact Nat.lt_irrefl _ lower
  have dropped : g.path.dropWhile (fun p => state.typer.read p ≠ g.current) = [] :=
    List.dropWhile_eq_nil_iff.mpr fun p inside => decide_eq_true (new p inside)
  rw [Resolution.cycleOf, dropped]

private theorem Goal.OnTrack.refresh {before after : Typer} (renewal : Renewal before after θ θ')
    {g : Goal} (onTrack : g.OnTrack plan before.counter θ) :
    ({ g with current := after.read g.current } : Goal).OnTrack plan after.counter θ' ∧
      (after.read g.current).fill θ' = g.current.fill θ := by
  obtain ⟨within, same⟩ := renewal.read (renewal.within onTrack.current)
  rw [renewal.fill_eq onTrack.current] at same
  refine ⟨⟨within, fun p inside => renewal.within (onTrack.path p inside), ?_, fun p inside => ?_⟩,
    same⟩
  · rw [same]
    exact onTrack.meets
  · rw [same, renewal.fill_eq (onTrack.path p inside)]
    exact onTrack.falling p inside

private theorem Goal.OnTrack.bring {before after : Typer} (renewal : Renewal before after θ θ')
    {goal : Goal} (onTrack : goal.OnTrack plan before.counter θ) {rule : Rule}
    (serves : rule.Serves plan.meets plan.cost θ₀ ρ (goal.current.fill θ)) {d d' : Term}
    (dependency : d ∈ rule.dependencies) (within : d'.IntactWithin θ' after.counter)
    (opens : d'.fill θ' = d.fill ρ) :
    (⟨after.read d', after.read d', goal.path ++ [goal.current]⟩ : Goal).OnTrack plan
        after.counter θ' ∧ (after.read d').fill θ' = d.fill ρ := by
  obtain ⟨inside, same⟩ := renewal.read within
  rw [opens] at same
  have cheaper : plan.cost (d.fill ρ) < plan.cost (goal.current.fill θ) := by
    have part := List.le_sum_of_mem (List.mem_map.mpr ⟨d, dependency, rfl⟩ :
      plan.cost (d.fill ρ) ∈ rule.dependencies.map fun d => plan.cost (d.fill ρ))
    have whole := serves.cost
    omega
  refine ⟨⟨inside, fun p member => ?_, ?_, fun p member => ?_⟩, same⟩
  · rcases List.mem_append.mp member with ancestor | parent
    · exact renewal.within (onTrack.path p ancestor)
    · rw [List.mem_singleton.mp parent]
      exact renewal.within onTrack.current
  · rw [same]
    exact serves.dependencies d dependency
  · rw [same]
    rcases List.mem_append.mp member with ancestor | parent
    · rw [renewal.fill_eq (onTrack.path p ancestor)]
      exact Nat.lt_trans cheaper (onTrack.falling p ancestor)
    · rw [List.mem_singleton.mp parent, renewal.fill_eq onTrack.current]
      exact cheaper

end

namespace SearchState.OnTrack

variable {plan : Plan registry θ₀} {bound : Nat} {state : SearchState β} {θ ρ : TypeVar → Term}
  {goal : Goal} {rest : List Goal} {inst : Instance β} {P : Term → Prop}

private theorem exists_unify (onTrack : state.OnTrack plan bound θ) (rulesOver : registry.Over P)
    (member : goal ∈ state.goals) (registered : inst ∈ registry)
    (serves : inst.rule.Serves plan.meets plan.cost θ₀ ρ (goal.current.fill θ)) (report : Report) :
    (∃ s, Typing.unify goal.current
          (inst.rule.returns.subst (state.typer.freshFor .unification inst.rule.typeParams).1)
          (.start (state.typer.freshFor .unification inst.rule.typeParams).2 report) = .ok () s ∧
        s.typer.rigid = [] ∧ s.typer.counter = state.typer.counter + inst.rule.typeParams.length ∧
        Renewal state.typer s.typer θ (state.typer.renewed inst.rule.typeParams ρ θ)) ∨
      ∃ s, Typing.unify goal.current
          (inst.rule.returns.subst (state.typer.freshFor .unification inst.rule.typeParams).1)
          (.start (state.typer.freshFor .unification inst.rule.typeParams).2 report) =
        .error .tooDeep s := by
  obtain ⟨-, given⟩ := rulesOver inst registered
  have root : inst.rule.returns ∈ inst.rule.terms := List.mem_cons_self ..
  have outside : ∀ v ∈ inst.rule.names, v ∉ inst.rule.typeParams → ρ v = θ v :=
    fun v named free => (serves.outside v named free).trans
      (onTrack.names inst registered v named).symm
  have current := (onTrack.goals goal member).current
  let θ' := state.typer.renewed inst.rule.typeParams ρ θ
  have older : ∀ v, v.Older state.typer.counter → θ' v = θ v := fun v => Typer.renewed_of_older
  have more : state.typer.counter ≤ state.typer.counter + inst.rule.typeParams.length :=
    Nat.le_add_right _ _
  have solves : Satisfies θ' state.typer.classes :=
    satisfies_renewed onTrack.sane older onTrack.satisfies
  have sane : Sane (Term.IntactWithin θ' (state.typer.counter + inst.rule.typeParams.length))
      state.typer.classes := onTrack.sane.mono fun _ within => (within.congr older).mono more
  have left := (current.congr older).mono more
  have right := state.typer.intactWithin_specialize given outside root (serves.intact _ root)
  rw [inst.rule.subst_freshFor_eq_specialize given]
  have opened := state.typer.fill_specialize_renewed given outside root
    (serves.intact _ root).quantifierFree
  have agree : goal.current.fill θ' = (inst.rule.specialize
      (state.typer.opening .unification inst.rule.typeParams) inst.rule.returns).fill θ' := by
    rw [opened, serves.returns, current.fill_congr older]
  rcases Typing.unify_opened_intact onTrack.rigid (sane.mono fun _ within => within.1) .unification
      inst.rule.typeParams left.1 right.1 solves agree report with
    ⟨s, unified, satisfies⟩ | ⟨s, stopped⟩
  · obtain ⟨rigid, counter, after, -⟩ := Typing.unify_opened (Typing.tame_intactWithin _ _)
      onTrack.rigid sane left right unified
    rw [← counter] at more after
    exact .inl ⟨s, unified, rigid, counter, more, older, after, satisfies⟩
  · exact .inr ⟨s, stopped⟩

private theorem advance (onTrack : state.OnTrack plan bound θ) (rulesOver : registry.Over P)
    (goals : (goal :: rest).Perm state.goals) (registered : inst ∈ registry)
    (serves : inst.rule.Serves plan.meets plan.cost θ₀ ρ (goal.current.fill θ))
    {typer : Typer} (rigid : typer.rigid = [])
    (counter : typer.counter = state.typer.counter + inst.rule.typeParams.length)
    (renewal : Renewal state.typer typer θ (state.typer.renewed inst.rule.typeParams ρ θ)) :
    (Resolution.advance state goal rest inst (inst.rule.dependencies.map
      (Term.subst (state.typer.freshFor .unification inst.rule.typeParams).1)) typer).OnTrack
        plan bound (state.typer.renewed inst.rule.typeParams ρ θ) := by
  obtain ⟨-, given⟩ := rulesOver inst registered
  have outside : ∀ v ∈ inst.rule.names, v ∉ inst.rule.typeParams → ρ v = θ v :=
    fun v named free => (serves.outside v named free).trans
      (onTrack.names inst registered v named).symm
  rw [inst.rule.subst_freshFor_eq_specialize given]
  set σ := state.typer.opening .unification inst.rule.typeParams
  obtain ⟨here, others⟩ :=
    List.forall_mem_cons.mp fun g member => onTrack.goals g (goals.subset member)
  have refreshed {g : Goal} (member : g ∈ rest) := (others g member).refresh renewal
  have brought {d : Term} (dependency : d ∈ inst.rule.dependencies) :=
    have term : d ∈ inst.rule.terms := List.mem_cons_of_mem _ dependency
    here.bring renewal serves dependency
      (counter ▸ state.typer.intactWithin_specialize given outside term (serves.intact d term))
      (state.typer.fill_specialize_renewed given outside term (serves.intact d term).quantifierFree)
  refine ⟨rigid, renewal.sane, renewal.satisfies, fun i member v named =>
    (renewal.names rulesOver i member v named).trans (onTrack.names i member v named),
    fun g member => ?_, ?_⟩
  · rcases Resolution.mem_goals_advance.mp member with ⟨g, inside, rfl⟩ | ⟨d', inside, rfl⟩
    · exact (refreshed inside).1
    · obtain ⟨d, dependency, rfl⟩ := List.mem_map.mp inside
      exact (brought dependency).1
  · have before : plan.total θ state.goals =
        plan.cost (goal.current.fill θ) + plan.total θ rest := (goals.map _).sum_nat.symm
    have after : plan.total (state.typer.renewed inst.rule.typeParams ρ θ)
        (Resolution.advance state goal rest inst (inst.rule.dependencies.map
          (inst.rule.specialize σ)) typer).goals = plan.total θ rest +
            (inst.rule.dependencies.map fun d => plan.cost (d.fill ρ)).sum := by
      simp only [Plan.total, Resolution.advance, List.map_append, List.map_map, List.sum_append]
      congr 1
      · exact congrArg List.sum (List.map_congr_left fun g member =>
          congrArg plan.cost (refreshed member).2)
      · exact congrArg List.sum (List.map_congr_left fun d member =>
          congrArg plan.cost (brought member).2)
    have cost := onTrack.cost
    have cheap := serves.cost
    have depth : (Resolution.advance state goal rest inst (inst.rule.dependencies.map
      (inst.rule.specialize σ)) typer).depth = state.depth + 1 := rfl
    omega

theorem opened_of_attempt (onTrack : state.OnTrack plan bound θ) (rulesOver : registry.Over P)
    (goals : (goal :: rest).Perm state.goals) (registered : inst ∈ registry)
    (serves : inst.rule.Serves plan.meets plan.cost θ₀ ρ (goal.current.fill θ))
    {attempted : Resolution.Attempt β} {r r' : Report}
    (ran : Resolution.attempt state goal rest inst r = .ok attempted r') :
    ∃ next θ', attempted = .opened next ∧ next.OnTrack plan bound θ' ∧
      state.typer.counter ≤ next.typer.counter ∧
      ∀ v, v.Older state.typer.counter → θ' v = θ v := by
  have member : goal ∈ state.goals := goals.subset (List.mem_cons_self ..)
  rcases onTrack.exists_unify rulesOver member registered serves r with
    ⟨s, unified, rigid, counter, renewal⟩ | ⟨s, stopped⟩
  · have next := onTrack.advance rulesOver goals registered serves rigid counter renewal
    obtain ⟨r'', opened⟩ := Resolution.attempt_eq_opened unified rfl next.findCycle_eq_none
    rw [opened] at ran
    cases ran
    exact ⟨_, _, rfl, next, renewal.counter, renewal.older⟩
  · unfold Resolution.attempt at ran
    dsimp only at ran
    rw [stopped] at ran
    cases ran

private theorem exists_candidate (onTrack : state.OnTrack plan bound θ)
    (checked : ∀ inst ∈ registry, inst.rule.checked = .ok inst.rule) (member : goal ∈ state.goals)
    (applied : goal.current.head?.isSome = true) :
    ∃ inst ∈ registry.candidatesFor goal.current, ∃ ρ,
      inst.rule.Serves plan.meets plan.cost θ₀ ρ (goal.current.fill θ) := by
  have here := onTrack.goals goal member
  obtain ⟨inst, registered, ρ, serves⟩ := plan.starts _ here.meets
  refine ⟨inst, Registry.mem_candidatesFor.mpr ⟨registered, ?_⟩, ρ, serves⟩
  obtain ⟨head, goalHead⟩ := Option.isSome_iff_exists.mp applied
  obtain ⟨other, ruleHead⟩ := Option.isSome_iff_exists.mp (Rule.returns_of_checked
    (checked inst registered))
  have heads := congrArg Term.head? serves.returns
  rw [(serves.intact _ (List.mem_cons_self ..)).head?_fill ruleHead,
    here.current.1.head?_fill goalHead] at heads
  exact ⟨head, goalHead, ruleHead.trans heads⟩

private theorem exists_opened (onTrack : state.OnTrack plan bound θ) (rulesOver : registry.Over P)
    (checked : ∀ inst ∈ registry, inst.rule.checked = .ok inst.rule) (goals : state.goals ≠ [])
    {found : Resolution.Findings β} (expanded : Resolution.Expanded registry state found) :
    ∃ next ∈ found.opened, ∃ θ', next.OnTrack plan bound θ' := by
  obtain ⟨sel, selected⟩ := Resolution.exists_selection goals
  have perm := Resolution.perm_of_mem_selections_ordered selected
  have member : sel.1 ∈ state.goals := perm.subset (List.mem_cons_self ..)
  obtain ⟨inst, candidate, ρ, serves⟩ :=
    onTrack.exists_candidate checked member (expanded.applied _ member)
  have registered := (Registry.mem_candidatesFor.mp candidate).1
  obtain ⟨attempted, r, r', ran, opens⟩ := expanded.tried sel selected inst candidate
  obtain ⟨next, θ', opened, after, -⟩ :=
    onTrack.opened_of_attempt rulesOver perm registered serves ran
  exact ⟨next, opens next opened, θ', after⟩

end SearchState.OnTrack

theorem search_onTrack {P : Term → Prop} (rulesOver : registry.Over P)
    (checked : ∀ inst ∈ registry, inst.rule.checked = .ok inst.rule) {plan : Plan registry θ₀}
    {bound n expansions : Nat} {waiting : List (SearchState β)} {cycle : Option (List Term)}
    {deadEnd : Bool} {report report' : Report} {ending : Resolution.Ending β}
    (ran : Resolution.search registry n expansions waiting cycle deadEnd report =
      .ok ending report')
    (start : ∃ s ∈ waiting, ∃ θ, s.OnTrack plan bound θ) :
    (∃ k state, ending = .won k state ∧ state.depth ≤ bound) ∨
      ∃ k last c d, ending = .lost k last c d ∧ last ≠ [] ∧ k = expansions + n := by
  have kept := Resolution.search_induction
    (Q := fun waiting => ∃ s ∈ waiting, ∃ θ, s.OnTrack plan bound θ)
    (fun {_ others state _} taken goals expanded onTrack => by
      obtain ⟨perm, -⟩ := Resolution.takeLeast_spec taken
      obtain ⟨s, member, θ, here⟩ := onTrack
      rcases List.mem_cons.mp (perm.subset member) with rfl | other
      · obtain ⟨next, opened, after⟩ := here.exists_opened rulesOver checked goals expanded
        exact ⟨next, List.mem_append_right _ opened, after⟩
      · exact ⟨s, List.mem_append_left _ other, θ, here⟩)
    ran start
  rcases kept with ⟨k, state, others, last, rfl, -, ⟨s, member, θ, onTrack⟩, taken⟩ |
    ⟨k, last, c, d, rfl, ⟨s, member, -⟩, cut⟩
  · -- the state on track was waiting too, and the winner was taken first
    obtain ⟨-, least⟩ := Resolution.takeLeast_spec taken
    have score := least s member
    have bounded := onTrack.score_le
    have depth : state.depth ≤ state.score := Nat.le_add_right _ _
    exact .inl ⟨k, state, rfl, by omega⟩
  · have waits := List.ne_nil_of_mem member
    exact .inr ⟨k, last, c, d, rfl, waits, cut.resolve_left waits⟩

end TypedCalls
