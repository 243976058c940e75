import Mathlib.Algebra.GroupWithZero.Nat
import Mathlib.Tactic.Common
import TypedCalls.Proofs.Instance.Cost
import TypedCalls.Proofs.Instance.Progress
import TypedCalls.Proofs.Instance.Pursuit

/-!
The search loses no solution and finds a cheapest one.

Where the rules are first-order, cheapest derivations are a plan: the root of a cheapest derivation is
an instance to start with, and its parts are cheapest derivations of the dependencies. So if the goals
can be met under some solution of what the typer knows, the search is on track from the start.
-/

set_option autoImplicit false

namespace TypedCalls

open Problem
open Classes (Satisfies)

variable {β : Type}

/-- The variables in the form of made-up ones that a typer knows of have numbers it has given out. -/
structure Typer.Numbered (typer : Typer) : Prop where
  mentioned : ∀ v ∈ typer.classes.mentioned, v.Older typer.counter
  bound : ∀ x t, (typer.classes.get x).1 = some t → ∀ v ∈ t.freeVars, v.Older typer.counter

private theorem Typer.Numbered.sane {typer : Typer} (numbered : typer.Numbered)
    (sane : Sane Term.FirstOrder typer.classes) :
    Sane (Term.Within typer.counter) typer.classes where
  tidy := sane.tidy
  acyclic := sane.acyclic
  bound {x t} bound := by
    obtain ⟨first, notUse⟩ := sane.bound bound
    refine ⟨⟨first, numbered.bound x t ?_⟩, notUse⟩
    rw [Classes.get_fst sane.tidy, bound]
  mentioned {x} member := Term.Within.use.mpr (numbered.mentioned x member)

private theorem Typer.numbered_of_reached {c : Nat} {typer : Typer}
    (reached : typer.Reached (Term.Within c)) (le : c ≤ typer.counter) : typer.Numbered := by
  obtain ⟨-, sane⟩ := reached.sane (Typing.tame_within c)
  refine ⟨fun v member => (Term.Within.use.mp (sane.mentioned member)).mono le, ?_⟩
  intro x t bound v free
  rw [Classes.get_fst sane.tidy] at bound
  exact ((sane.bound bound).1.2 v free).mono le

section

variable {registry : Registry β} {typer : Typer} {goals : List Term} {θ : TypeVar → Term}

/-- To meet what can be derived, by the roots of cheapest derivations. -/
noncomputable def cheapestPlan (rulesOver : registry.Over Term.FirstOrder) (θ : TypeVar → Term) :
    Plan registry θ where
  meets t := ∃ n, Derivable registry θ n t
  cost := leastCost registry θ
  starts := by
    rintro goal ⟨n, derivable⟩
    obtain ⟨inst, registered, ρ, outside, returns, dependencies, cost⟩ := exists_cheapest derivable
    exact ⟨inst, registered, ρ, outside, fun t term => ((rulesOver inst registered).1 t term).intact ρ,
      returns, dependencies, cost⟩

private theorem sum_leastCost_le_nodesAll (rulesOver : registry.Over Term.FirstOrder)
    {ds : List (Derivation β)} (meetAll : Derivation.MeetAll registry (EqualUnder θ) ds goals) :
    (∀ g ∈ goals, ∃ n, Derivable registry θ n (g.fill θ)) ∧
      (goals.map fun g => leastCost registry θ (g.fill θ)).sum ≤ Derivation.nodesAll ds := by
  have free : registry.Over Term.QuantifierFree := fun inst registered =>
    ⟨fun t term => Term.BuiltFrom.quantifierFree ((rulesOver inst registered).1 t term),
      (rulesOver inst registered).2⟩
  have derivable := derivableAll_of_meetAll
    (fun d _ goal meets => derivable_of_meets free meets) meetAll
  have sum := derivable.sum_leastCost_le
  rw [List.map_map] at sum
  exact ⟨fun g member => derivable.each _ (List.mem_map.mpr ⟨g, member, rfl⟩), sum⟩

private theorem onTrack_start (rulesOver : registry.Over Term.FirstOrder)
    (reached : typer.Reached Term.FirstOrder) (numbered : typer.Numbered)
    (within : ∀ g ∈ goals, g.Within typer.counter) (satisfies : Satisfies θ typer.classes)
    {ds : List (Derivation β)} (meetAll : Derivation.MeetAll registry (EqualUnder θ) ds goals) :
    (SearchState.start typer goals : SearchState β).OnTrack (cheapestPlan rulesOver θ)
      (Derivation.nodesAll ds) θ := by
  obtain ⟨rigid, sane⟩ := reached.sane (Typing.tame_builtFrom _)
  obtain ⟨derivable, cost⟩ := sum_leastCost_le_nodesAll rulesOver meetAll
  have intact : Sane (Term.IntactWithin θ typer.counter) typer.classes :=
    (numbered.sane sane).mono fun _ within => within.intactWithin θ
  refine ⟨rigid, intact, satisfies, fun _ _ _ _ => rfl, fun g member => ?_, ?_⟩
  · obtain ⟨t, inside, rfl⟩ := List.mem_map.mp member
    exact ⟨(within t inside).intactWithin θ, nofun, derivable t inside, nofun⟩
  · rw [Plan.total, SearchState.start, List.map_map, Nat.zero_add]
    exact cost

end

/-- Exploration comes to an ending if the goals are applied constructors, and resolution concludes
from it. If it is lost before the limit, or with no state left waiting, the goals have no derivations
under any solution of what the typer knows. A winning state has applied no more instances than any
derivations of the goals. -/
theorem Registry.explore_complete {registry : Registry β} (rulesOver : registry.Over Term.FirstOrder)
    (checked : ∀ inst ∈ registry, inst.rule.checked = .ok inst.rule) {typer : Typer}
    (reached : typer.Reached Term.FirstOrder) (numbered : typer.Numbered) {goals : List Term}
    (nonempty : goals ≠ []) (within : ∀ g ∈ goals, g.Within typer.counter) (limit : Nat)
    (report : Report) :
    ((∀ g ∈ goals, g.head?.isSome = true) →
      ∃ ending report', registry.explore limit typer goals report = .ok ending report') ∧
    ∀ ending report', registry.explore limit typer goals report = .ok ending report' →
      registry.resolve limit typer goals report = Resolution.conclude goals ending report' ∧
      (∀ k waiting cycle deadEnd, ending = .lost k waiting cycle deadEnd →
        k < limit ∨ waiting = [] →
        ¬∃ θ ds, Satisfies θ typer.classes ∧
          Derivation.MeetAll registry (EqualUnder θ) ds goals) ∧
      ∀ k state, ending = .won k state → ∀ θ ds, Satisfies θ typer.classes →
        Derivation.MeetAll registry (EqualUnder θ) ds goals →
          state.depth ≤ Derivation.nodesAll ds := by
  refine ⟨fun applied => ?_, fun ending report' ran => ?_⟩
  · rw [explore_apply]
    have first : ∀ g ∈ goals, g.FirstOrder ∧ g.head?.isSome = true :=
      fun g member => ⟨(within g member).1, applied g member⟩
    exact Resolution.search_ok rulesOver checked limit 0 (fun s member =>
      List.mem_singleton.mp member ▸ SearchState.Orderly.start reached first) none false _
  · have search (θ : TypeVar → Term) (ds : List (Derivation β))
        (satisfies : Satisfies θ typer.classes)
        (meetAll : Derivation.MeetAll registry (EqualUnder θ) ds goals) :=
      search_onTrack rulesOver checked (explore_apply registry limit typer goals report ▸ ran)
        ⟨_, List.mem_singleton_self _, θ,
          onTrack_start rulesOver reached numbered within satisfies meetAll⟩
    refine ⟨?_, ?_, ?_⟩
    · rw [resolve_apply registry limit typer nonempty]
      simp only [bind, EStateM.bind, ran]
    · rintro k waiting cycle deadEnd rfl early ⟨θ, ds, satisfies, meetAll⟩
      rcases search θ ds satisfies meetAll with ⟨_, _, equal, -⟩ | ⟨_, _, _, _, equal, waits, cut⟩
      · cases equal
      · cases equal
        rcases early with early | done
        · omega
        · exact waits done
    · rintro k state rfl θ ds satisfies meetAll
      rcases search θ ds satisfies meetAll with ⟨_, _, equal, depth⟩ | ⟨_, _, _, _, equal, -⟩
      · cases equal
        exact depth
      · cases equal

/-- A list is shown by its elements, and everything is shown by itself, which leads nowhere. A typer
that knows `x` to be an integer wins with two applications for a list of `x`. -/
theorem Registry.explore_complete_list :
    let a : TypeVar := ⟨"a"⟩
    let x : TypeVar := ⟨"x"⟩
    let shown (t : Term) : Term := .con "Show" [t]
    let list (t : Term) : Term := .con "list" [t]
    let registry : Registry Nat :=
      [⟨⟨[a], [shown (.use a)], shown (.use a)⟩, fun parts => parts.sum⟩,
        ⟨⟨[a], [shown (.use a)], shown (list (.use a))⟩, fun parts => parts.sum + 1⟩,
        ⟨⟨[], [], shown (.named "int")⟩, fun _ => 1⟩]
    let typer := (Typing.remains (Typing.unify (.use x) (.named "int") (.start .fresh .quiet))).typer
    let goals := [shown (list (.use x))]
    registry.Over Term.FirstOrder ∧ (∀ inst ∈ registry, inst.rule.checked = .ok inst.rule) ∧
      typer.Reached Term.FirstOrder ∧ typer.Numbered ∧
      (∀ g ∈ goals, g.Within typer.counter) ∧
      ∃ k state report, registry.explore 300 typer goals .quiet = .ok (.won k state) report ∧
        state.depth = 2 ∧
        ∀ θ ds, Satisfies θ typer.classes → Derivation.MeetAll registry (EqualUnder θ) ds goals →
          2 ≤ Derivation.nodesAll ds := by
  intro a x shown list registry typer goals
  have rulesOver : registry.Over Term.FirstOrder := by
    have given : ¬a.MadeUp := TypeVar.not_madeUp_of_belongsTo fun family => by
      cases family <;> decide
    simp [Registry.Over, registry, shown, list, Rule.terms, Rule.names, Term.FirstOrder,
      Term.BuiltFrom, Term.BuiltFromAll, Term.nullableHead, Term.freeVars, Term.freeVarsAll, given]
  have checked : ∀ inst ∈ registry, inst.rule.checked = .ok inst.rule := by
    simp [registry, shown, Rule.checked, Term.head?]
  have older (c : Nat) : x.Older c :=
    TypeVar.older_of_not_madeUp (TypeVar.not_madeUp_of_belongsTo fun family => by
      cases family <;> decide) c
  have integer : (Term.named "int").Within 0 := by
    simp [Term.Within, Term.FirstOrder, Term.BuiltFrom, Term.BuiltFromAll, Term.nullableHead,
      Term.freeVars, Term.freeVarsAll]
  have reached : typer.Reached Term.FirstOrder := .unified .quiet .refl trivial integer.1
  have numbered : typer.Numbered := Typer.numbered_of_reached
    (.unified .quiet .refl (Term.Within.use.mpr (older 0)) integer) (Nat.zero_le _)
  have within : ∀ g ∈ goals, g.Within typer.counter := by
    simp [goals, shown, list, Term.Within, Term.FirstOrder, Term.BuiltFrom, Term.BuiltFromAll,
      Term.nullableHead, Term.freeVars, Term.freeVarsAll, older]
  have applied : ∀ g ∈ goals, g.head?.isSome = true := by simp [goals, shown, Term.head?]
  have depth : ((registry.explore 300 typer goals).run' .quiet).bind Resolution.Ending.depth? =
      some 2 := by decide +kernel
  have nonempty : goals ≠ [] := List.cons_ne_nil _ _
  obtain ⟨ends, complete⟩ :=
    explore_complete rulesOver checked reached numbered nonempty within 300 .quiet
  obtain ⟨ending, report, ran⟩ := ends applied
  obtain ⟨-, -, least⟩ := complete ending report ran
  refine ⟨rulesOver, checked, reached, numbered, within, ?_⟩
  unfold EStateM.run' EStateM.run at depth
  rw [ran] at depth
  cases ending with
  | won k state =>
    have two : state.depth = 2 := Option.some.inj depth
    exact ⟨k, state, report, ran, two, two ▸ least k state rfl⟩
  | lost k waiting cycle deadEnd => cases depth

end TypedCalls
