import TypedCalls.Proofs.Instance.Cost
import TypedCalls.Proofs.Instance.Soundness

/-!
The depth of a state counts the applications of a derivation.

Whatever it takes to derive the goals that a state still has, the goals that the search set out with
are derived by that many applications and as many more as the state has made
(`SearchState.Accounts`). A state that has won has made enough of them on its own.
-/

set_option autoImplicit false

namespace TypedCalls

open Problem
open Classes (Satisfies)

variable {β : Type} {registry : Registry β} {θ : TypeVar → Term}

private theorem DerivableAll.of_append {n : Nat} {ts us : List Term}
    (derivable : DerivableAll registry θ n (ts ++ us)) :
    ∃ i j, n = i + j ∧ DerivableAll registry θ i ts ∧ DerivableAll registry θ j us := by
  induction ts generalizing n with
  | nil => exact ⟨0, n, (Nat.zero_add n).symm, .nil, derivable⟩
  | cons t ts ih =>
    cases derivable with
    | @cons m k _ _ first others =>
      obtain ⟨i, j, rfl, left, right⟩ := ih others
      exact ⟨m + i, j, (Nat.add_assoc ..).symm, .cons first left, right⟩

private theorem DerivableAll.perm {n : Nat} {ts us : List Term} (perm : ts.Perm us)
    (derivable : DerivableAll registry θ n ts) : DerivableAll registry θ n us := by
  induction perm generalizing n with
  | nil => exact derivable
  | cons t _ ih =>
    cases derivable with
    | cons first others => exact .cons first (ih others)
  | swap t u ts =>
    cases derivable with
    | @cons m k _ _ first others =>
      cases others with
      | @cons l j _ _ second rest =>
        rw [Nat.add_left_comm]
        exact .cons second (.cons first rest)
  | trans _ _ ih ih' => exact ih' (ih derivable)

/-- A sound state that accounts for the goals that the search set out with. -/
structure SearchState.Accounts (registry : Registry β) (goals : List Term) (state : SearchState β) :
    Prop where
  sound : state.Sound registry
  derives : ∀ θ, Satisfies θ state.typer.classes → ∀ n,
    DerivableAll registry θ n (state.goals.map fun g => g.current.fill θ) →
      DerivableAll registry θ (n + state.depth) (goals.map (Term.fill θ))

theorem accounts_start {typer : Typer} {goals : List Term}
    (reached : typer.Reached Term.QuantifierFree) (free : ∀ g ∈ goals, g.QuantifierFree) :
    (SearchState.start typer goals : SearchState β).Accounts registry goals := by
  refine ⟨sound_start reached free, fun θ _ n derivable => ?_⟩
  rw [SearchState.start, List.map_map] at derivable
  exact derivable

namespace SearchState.Accounts

variable {goals : List Term} {state : SearchState β}

private theorem advance (accounts : state.Accounts registry goals)
    (rulesOver : registry.Over Term.QuantifierFree) {goal : Goal} {rest : List Goal}
    (perm : (goal :: rest).Perm state.goals) {inst : Instance β} (registered : inst ∈ registry)
    {report : Report} {s : Session}
    (unified : Typing.unify goal.current
      (inst.rule.returns.subst (state.typer.freshFor .unification inst.rule.typeParams).1)
      (.start (state.typer.freshFor .unification inst.rule.typeParams).2 report) = .ok () s) :
    (Resolution.advance state goal rest inst (inst.rule.dependencies.map
      (Term.subst (state.typer.freshFor .unification inst.rule.typeParams).1)) s.typer).Accounts
        registry goals := by
  have sound := accounts.sound
  refine ⟨sound.advance rulesOver perm registered unified, fun θ satisfies n derivable => ?_⟩
  obtain ⟨terms, given⟩ := rulesOver inst registered
  let σ := state.typer.opening .unification inst.rule.typeParams
  rw [inst.rule.subst_freshFor_eq_specialize given] at unified derivable
  have special {t : Term} (term : t ∈ inst.rule.terms) : (inst.rule.specialize σ t).QuantifierFree :=
    inst.rule.builtFrom_specialize (state.typer.builtFrom_opening _ _) (terms t term)
  obtain ⟨⟨free, -⟩, others⟩ :=
    List.forall_mem_cons.mp fun g member => sound.goals g (perm.subset member)
  obtain ⟨-, -, sane, solutions⟩ := Typing.unify_opened (Typing.tame_builtFrom _) sound.rigid
    sound.sane free (special (List.mem_cons_self ..)) unified
  obtain ⟨before, agree⟩ := solutions θ satisfies
  have read {t : Term} (free : t.QuantifierFree) : (s.typer.read t).fill θ = t.fill θ :=
    Classes.fill_read sane.tidy sane.acyclic (fun _ _ bound => (sane.bound bound).1) satisfies free
  let ρ : TypeVar → Term := fun v => if v ∈ inst.rule.typeParams then (σ v).fill θ else θ v
  have goalsAfter : (Resolution.advance state goal rest inst
      (inst.rule.dependencies.map (inst.rule.specialize σ)) s.typer).goals.map
        (fun g => g.current.fill θ) =
      rest.map (fun g => g.current.fill θ) ++ inst.rule.dependencies.map (Term.fill ρ) := by
    simp only [Resolution.advance, List.map_append, List.map_map]
    congr 1
    · exact List.map_congr_left fun g member => read (others g member).1
    · refine List.map_congr_left fun d dependency => ?_
      have term : d ∈ inst.rule.terms := List.mem_cons_of_mem _ dependency
      exact (read (special term)).trans (inst.rule.fill_specialize σ θ (terms d term))
  rw [goalsAfter] at derivable
  obtain ⟨i, j, rfl, left, right⟩ := derivable.of_append
  have root : Derivable registry θ (j + 1) (goal.current.fill θ) := by
    rw [agree, inst.rule.fill_specialize σ θ (terms _ (List.mem_cons_self ..))]
    exact .node registered (fun v _ outside => if_neg outside) right
  have all := (DerivableAll.cons root left).perm (perm.map fun g => g.current.fill θ)
  have depth : i + j + (state.depth + 1) = j + 1 + i + state.depth := by omega
  show DerivableAll registry θ (i + j + (state.depth + 1)) _
  rw [depth]
  exact accounts.derives θ before _ all

theorem opened (accounts : state.Accounts registry goals)
    (rulesOver : registry.Over Term.QuantifierFree) {found : Resolution.Findings β}
    (expanded : Resolution.Expanded registry state found) :
    ∀ next ∈ found.opened, next.Accounts registry goals := by
  intro next member
  obtain ⟨sel, selected, inst, candidate, r, r', ran⟩ := expanded.opened next member
  obtain ⟨s, unified, rfl⟩ := Resolution.attempt_opened ran
  exact accounts.advance rulesOver (Resolution.perm_of_mem_selections_ordered selected)
    (Registry.mem_candidatesFor.mp candidate).1 unified

end SearchState.Accounts

theorem derivableAll_of_won (rulesOver : registry.Over Term.QuantifierFree) {typer : Typer}
    {goals : List Term} (reached : typer.Reached Term.QuantifierFree)
    (free : ∀ g ∈ goals, g.QuantifierFree) {limit k : Nat} {report report' : Report}
    {state : SearchState β}
    (won : registry.explore limit typer goals report = .ok (.won k state) report') :
    state.Sound registry ∧ ∀ θ, Satisfies θ state.typer.classes →
      DerivableAll registry θ state.depth (goals.map (Term.fill θ)) := by
  rw [Registry.explore_apply] at won
  obtain ⟨finished, accounts⟩ := Resolution.holds_of_won
    (fun accounts expanded => SearchState.Accounts.opened accounts rulesOver expanded) won
    (fun s member => List.mem_singleton.mp member ▸ accounts_start reached free)
  refine ⟨accounts.sound, fun θ satisfies => ?_⟩
  have none : DerivableAll registry θ 0 (state.goals.map fun g => g.current.fill θ) := by
    rw [finished]
    exact .nil
  have all := accounts.derives θ satisfies 0 none
  rwa [Nat.zero_add] at all

end TypedCalls
