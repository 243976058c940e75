import TypedCalls.Proofs.Instance.Opening
import TypedCalls.Proofs.Instance.Search

/-!
A search over first-order goals never breaks off: unification does not stop short, and every goal
stays an applied constructor.
-/

set_option autoImplicit false

namespace TypedCalls

open Problem

variable {β : Type}

/-- A state all of whose goals can be looked up, in a typer that works on first-order terms. -/
structure SearchState.Orderly (state : SearchState β) : Prop where
  rigid : state.typer.rigid = []
  sane : Sane Term.FirstOrder state.typer.classes
  goals : ∀ g ∈ state.goals, g.current.FirstOrder ∧ g.current.head?.isSome = true

private theorem mapM_ok {ε σ α γ : Type} {f : α → EStateM ε σ γ} {xs : List α}
    (each : ∀ x ∈ xs, ∀ s, ∃ y s', f x s = .ok y s') (s : σ) :
    ∃ ys s', xs.mapM f s = .ok ys s' := by
  induction xs generalizing s with
  | nil => exact ⟨[], s, rfl⟩
  | cons x xs ih =>
    obtain ⟨here, there⟩ := List.forall_mem_cons.mp each
    obtain ⟨y, s₁, first⟩ := here s
    obtain ⟨ys, s₂, others⟩ := ih there s₁
    refine ⟨y :: ys, s₂, ?_⟩
    rw [List.mapM_cons]
    simp only [bind, EStateM.bind, first, others]
    rfl

namespace SearchState.Orderly

variable {registry : Registry β} {state : SearchState β} {goal : Goal} {rest : List Goal}
  {inst : Instance β}

theorem start {typer : Typer} (reached : typer.Reached Term.FirstOrder) {goals : List Term}
    (applied : ∀ g ∈ goals, g.FirstOrder ∧ g.head?.isSome = true) :
    (SearchState.start typer goals : SearchState β).Orderly := by
  obtain ⟨rigid, sane⟩ := reached.sane (Typing.tame_builtFrom _)
  refine ⟨rigid, sane, fun g member => ?_⟩
  obtain ⟨t, inside, rfl⟩ := List.mem_map.mp member
  exact applied t inside

private theorem read_applied {typer : Typer} (sane : Sane Term.FirstOrder typer.classes) {t : Term}
    (applied : t.FirstOrder ∧ t.head?.isSome = true) :
    (typer.read t).FirstOrder ∧ (typer.read t).head?.isSome = true := by
  obtain ⟨first, isSome⟩ := applied
  obtain ⟨head, here⟩ := Option.isSome_iff_exists.mp isSome
  rw [Typer.read, Classes.read_eq_fill]
  refine ⟨Term.builtFrom_fill first fun v _ => ?_, ?_⟩
  · exact Classes.builtFrom_reading sane.tidy sane.acyclic
      (fun _ _ bound => (sane.bound bound).1) v
  · rw [first.head?_fill _ here]
    rfl

section

variable (orderly : state.Orderly) (rulesOver : registry.Over Term.FirstOrder)
  (checked : ∀ inst ∈ registry, inst.rule.checked = .ok inst.rule)

include orderly rulesOver

private theorem attempt_ok (member : goal ∈ state.goals) (registered : inst ∈ registry)
    (report : Report) : ∃ attempted report', Resolution.attempt state goal rest inst report =
      .ok attempted report' := by
  obtain ⟨terms, given⟩ := rulesOver inst registered
  have first := inst.rule.builtFrom_specialize
    (state.typer.builtFrom_opening .unification inst.rule.typeParams)
    (terms inst.rule.returns (List.mem_cons_self ..))
  have outcomes := Typing.unify_opened_cases orderly.rigid orderly.sane .unification
    inst.rule.typeParams (orderly.goals goal member).1 first report
  rw [← inst.rule.subst_freshFor_eq_specialize given] at outcomes
  unfold Resolution.attempt
  dsimp only
  rcases outcomes with ⟨s, unified, -⟩ | ⟨clash, s, unified, -⟩
  · rw [unified]
    dsimp only
    split
    · exact ⟨_, _, rfl⟩
    · exact ⟨_, _, rfl⟩
  · rw [unified]
    exact ⟨_, _, rfl⟩

private theorem expand_ok (report : Report) :
    ∃ found report', Resolution.expand registry state report = .ok found report' := by
  have missing : state.goals.find? (fun goal => goal.current.head?.isNone) = none := by
    refine List.find?_eq_none.mpr fun goal member => ?_
    rw [Bool.not_eq_true, Option.isNone_eq_false_iff]
    exact (orderly.goals goal member).2
  have each : ∀ sel ∈ Resolution.selections (Resolution.ordered state), ∀ r,
      ∃ found r', Resolution.expandGoal registry state sel.1 sel.2 r = .ok found r' := by
    intro sel selected r
    have member := (Resolution.perm_of_mem_selections_ordered selected).subset
      (List.mem_cons_self ..)
    have tried : ∀ inst ∈ registry.candidatesFor sel.1.current, ∀ r,
        ∃ attempted r', Resolution.attempt state sel.1 sel.2 inst r = .ok attempted r' :=
      fun inst candidate =>
        orderly.attempt_ok rulesOver member (Registry.mem_candidatesFor.mp candidate).1
    obtain ⟨attempts, r', ran⟩ := mapM_ok tried r
    refine ⟨.ofAttempts attempts, r', ?_⟩
    simp only [Resolution.expandGoal, bind, EStateM.bind, ran]
    rfl
  obtain ⟨found, report', ran⟩ := mapM_ok each report
  refine ⟨found.foldl .append .none, report', ?_⟩
  rw [Resolution.expand_apply, missing]
  dsimp only
  rw [ran]

include checked

private theorem opened {found : Resolution.Findings β}
    (expanded : Resolution.Expanded registry state found) {next : SearchState β}
    (member : next ∈ found.opened) : next.Orderly := by
  obtain ⟨sel, selected, inst, candidate, r, r', ran⟩ := expanded.opened next member
  obtain ⟨s, unified, rfl⟩ := Resolution.attempt_opened ran
  have perm := Resolution.perm_of_mem_selections_ordered selected
  have registered := (Registry.mem_candidatesFor.mp candidate).1
  obtain ⟨terms, given⟩ := rulesOver inst registered
  have special {t : Term} (term : t ∈ inst.rule.terms) := inst.rule.builtFrom_specialize
    (state.typer.builtFrom_opening .unification inst.rule.typeParams) (terms t term)
  rw [inst.rule.subst_freshFor_eq_specialize given] at unified ⊢
  obtain ⟨here, others⟩ :=
    List.forall_mem_cons.mp fun g member => orderly.goals g (perm.subset member)
  obtain ⟨rigid, -, sane, -⟩ := Typing.unify_opened (Typing.tame_builtFrom _) orderly.rigid
    orderly.sane here.1 (special (List.mem_cons_self ..)) unified
  refine ⟨rigid, sane, fun g member => ?_⟩
  rcases Resolution.mem_goals_advance.mp member with ⟨g, inside, rfl⟩ | ⟨d', inside, rfl⟩
  · exact read_applied sane (others g inside)
  · obtain ⟨d, dependency, rfl⟩ := List.mem_map.mp inside
    have term : d ∈ inst.rule.terms := List.mem_cons_of_mem _ dependency
    obtain ⟨head, applied⟩ := Option.isSome_iff_exists.mp
      (Rule.dependencies_of_checked (checked inst registered) d dependency)
    refine read_applied sane ⟨special term, ?_⟩
    rw [inst.rule.specialize_eq_fill, (terms d term).head?_fill _ applied]
    rfl

end

end SearchState.Orderly

theorem Resolution.search_ok {registry : Registry β} (rulesOver : registry.Over Term.FirstOrder)
    (checked : ∀ inst ∈ registry, inst.rule.checked = .ok inst.rule) (n expansions : Nat)
    {waiting : List (SearchState β)} (orderly : ∀ s ∈ waiting, s.Orderly)
    (cycle : Option (List Term)) (deadEnd : Bool) (report : Report) :
    ∃ ending report', search registry n expansions waiting cycle deadEnd report =
      .ok ending report' := by
  induction n generalizing expansions waiting cycle deadEnd report with
  | zero => exact ⟨_, _, rfl⟩
  | succ n ih =>
    unfold search
    cases taken : takeLeast waiting with
    | none => exact ⟨_, _, rfl⟩
    | some pair =>
      obtain ⟨state, others⟩ := pair
      obtain ⟨perm, -⟩ := takeLeast_spec taken
      have here := orderly state (perm.symm.subset (List.mem_cons_self ..))
      dsimp only
      split
      · exact ⟨_, _, rfl⟩
      · obtain ⟨found, r, ran⟩ := here.expand_ok rulesOver report
        simp only [bind, EStateM.bind, ran]
        refine ih _ (fun next member => ?_) _ _ _
        rcases List.mem_append.mp member with old | new
        · exact orderly next (perm.symm.subset (List.mem_cons_of_mem _ old))
        · exact here.opened rulesOver checked (expanded_of_expand ran) new

end TypedCalls
