import TypedCalls.Proofs.Instance.Opening
import TypedCalls.Proofs.Instance.Search
import TypedCalls.Proofs.Succeeding
import TypedCalls.Proofs.Typer.Models

/-!
Evidence that is good for what goals mean.

A registry sustains a relation between evidence and goals if each of its instances builds good
evidence from good evidence, whatever stands in the place of its type parameters. What resolution
returns is then good for the goals, in every model of what the winning typer knows
(`resolve_good`). Unlike derivations of the goals as they read, this also covers goals about function
types, which may unify without being equal.
-/

set_option autoImplicit false

namespace TypedCalls

open Classes (Models)
open Typer (Learned)

variable {β : Type}

def Instance.Sustains (inst : Instance β) (Good : β → Term → Prop) : Prop :=
  ∀ τ values, List.Forall₂ Good values (inst.rule.dependencies.map (Term.sense τ)) →
    Good (inst.build values) (inst.rule.returns.sense τ)

def Registry.Sustains (registry : Registry β) (Good : β → Term → Prop) : Prop :=
  ∀ inst ∈ registry, inst.Sustains Good

/-- The choice is right in a model: its instance returns the key and depends on the keys it brings,
for some terms in the place of the type parameters. -/
def Choice.FitsIn (θ : TypeVar → Term) (key : Term) (choice : Choice β) : Prop :=
  ∃ τ, key.sense θ = choice.inst.rule.returns.sense τ ∧
    choice.subgoals.map (Term.sense θ) = choice.inst.rule.dependencies.map (Term.sense τ)

/-- A state that came from a typer by lessons, whose goals mean what they meant when they were
created, and whose choices are right in every model. -/
structure SearchState.Faithful (registry : Registry β) (typer : Typer) (state : SearchState β) :
    Prop where
  learned : Learned .senses typer state.typer
  goals : ∀ g ∈ state.goals, g.current.SchemeFree ∧
    ∀ θ, Models θ state.typer.classes → g.key.sense θ = g.current.sense θ
  chosen : ∀ key choice, state.chosen.get? key = some choice → choice.inst ∈ registry ∧
    ∀ θ, Models θ state.typer.classes → choice.FitsIn θ key

private theorem faithful_start {registry : Registry β} (typer : Typer) {goals : List Term}
    (free : ∀ g ∈ goals, g.SchemeFree) :
    (SearchState.start typer goals : SearchState β).Faithful registry typer := by
  refine ⟨.refl _ typer, fun g member => ?_, fun key choice found => by cases found⟩
  obtain ⟨t, inside, rfl⟩ := List.mem_map.mp member
  exact ⟨free t inside, fun _ _ => rfl⟩

theorem Typer.sense_subst_freshFor (typer : Typer) (family : Family) {vars : List TypeVar}
    (given : ∀ v ∈ vars, ¬v.MadeUp) (θ : TypeVar → Term) (t : Term) :
    (t.subst (typer.freshFor family vars).1).sense θ =
      t.sense fun v => (typer.opening family vars v).sense θ := by
  rw [typer.subst_freshFor family given, Term.sense_fill]

namespace SearchState.Faithful

variable {registry : Registry β} {typer : Typer} {state : SearchState β}

private theorem advance (faithful : state.Faithful registry typer) (sound : typer.Sound .senses)
    (rulesOver : registry.Over Term.SchemeFree) {goal : Goal} {rest : List Goal}
    (goals : (goal :: rest).Perm state.goals) {inst : Instance β} (registered : inst ∈ registry)
    {report : Report} {s : Session}
    (unified : Typing.unify goal.current
      (inst.rule.returns.subst (state.typer.freshFor .unification inst.rule.typeParams).1)
      (.start (state.typer.freshFor .unification inst.rule.typeParams).2 report) = .ok () s) :
    (Resolution.advance state goal rest inst (inst.rule.dependencies.map
      (Term.subst (state.typer.freshFor .unification inst.rule.typeParams).1))
        s.typer).Faithful registry typer := by
  obtain ⟨terms, given⟩ := rulesOver inst registered
  have givenParams : ∀ v ∈ inst.rule.typeParams, ¬v.MadeUp :=
    fun v member => given v (List.mem_append_left _ member)
  have opened {t : Term} (term : t ∈ inst.rule.terms) :
      (t.subst (state.typer.freshFor .unification inst.rule.typeParams).1).SchemeFree :=
    state.typer.schemeFree_subst _ _ (terms t term)
  obtain ⟨⟨free, created⟩, others⟩ :=
    List.forall_mem_cons.mp fun g member => faithful.goals g (goals.subset member)
  have named := Typer.learned_freshFor .senses state.typer .unification inst.rule.typeParams
  have soundNamed := named.sound (faithful.learned.sound sound)
  have keeps := Typing.honours_unify .senses goal.current _
    (.start (state.typer.freshFor .unification inst.rule.typeParams).2 report) soundNamed free
    (opened (List.mem_cons_self ..))
  rw [unified] at keeps
  obtain ⟨taught, agree⟩ := keeps.success
  have learned := named.trans taught
  have extension := learned.extends (faithful.learned.sound sound)
  have sane : Problem.Sane Term.SchemeFree s.typer.classes := taught.sound soundNamed
  refine ⟨faithful.learned.trans learned, fun g member => ?_, fun key choice found => ?_⟩
  · rcases List.mem_append.mp member with refreshed | brought
    · obtain ⟨g, inside, rfl⟩ := List.mem_map.mp refreshed
      obtain ⟨freeG, createdG⟩ := others g inside
      refine ⟨Classes.schemeFree_read sane freeG, fun θ models => ?_⟩
      rw [createdG θ (models.earlier extension)]
      exact (models.read sane.tidy sane.acyclic g.current).symm
    · obtain ⟨d, inside, rfl⟩ := List.mem_map.mp brought
      rw [List.map_map] at inside
      obtain ⟨t, dependency, rfl⟩ := List.mem_map.mp inside
      exact ⟨Classes.schemeFree_read sane (opened (List.mem_cons_of_mem _ dependency)),
        fun _ _ => rfl⟩
  · rw [Resolution.advance, Choices.get?_insert] at found
    split at found
    · next here =>
      cases found
      refine ⟨registered, fun θ models =>
        ⟨fun v => (state.typer.opening .unification inst.rule.typeParams v).sense θ, ?_, ?_⟩⟩
      · rw [here, created θ (models.earlier extension), agree θ models]
        exact state.typer.sense_subst_freshFor _ givenParams θ _
      · simp only [List.map_map]
        apply List.map_congr_left
        intro t _
        simp only [Function.comp_apply]
        rw [← state.typer.sense_subst_freshFor _ givenParams θ t]
        exact models.read sane.tidy sane.acyclic _
    · obtain ⟨member, fits⟩ := faithful.chosen key choice found
      exact ⟨member, fun θ models => fits θ (models.earlier extension)⟩

private theorem opened (faithful : state.Faithful registry typer) (sound : typer.Sound .senses)
    (rulesOver : registry.Over Term.SchemeFree) {found : Resolution.Findings β}
    (expanded : Resolution.Expanded registry state found) {next : SearchState β}
    (member : next ∈ found.opened) : next.Faithful registry typer := by
  obtain ⟨sel, selected, inst, candidate, r, r', ran⟩ := expanded.opened next member
  obtain ⟨s, unified, rfl⟩ := Resolution.attempt_opened ran
  exact faithful.advance sound rulesOver (Resolution.perm_of_mem_selections_ordered selected)
    (Registry.mem_candidatesFor.mp candidate).1 unified

end SearchState.Faithful

private theorem good_evidence {registry : Registry β} {Good : β → Term → Prop}
    (sustains : registry.Sustains Good) {chosen : Choices β} {θ : TypeVar → Term}
    (fits : ∀ key choice, chosen.get? key = some choice →
      choice.inst ∈ registry ∧ choice.FitsIn θ key)
    (n : Nat) {key : Term} {value : β} (built : chosen.evidence n key = some value) :
    Good value (key.sense θ) := by
  induction n generalizing key value with
  | zero => cases built
  | succ n ih =>
    rw [Choices.evidence] at built
    split at built
    · cases built
    · next choice found =>
      obtain ⟨values, parts, rfl⟩ := Option.map_eq_some_iff.mp built
      obtain ⟨registered, τ, returns, dependencies⟩ := fits key choice found
      rw [returns]
      refine sustains choice.inst registered τ values ?_
      rw [← dependencies, List.forall₂_map_right_iff]
      exact (forall₂_of_mapM_some parts).flip.imp fun _ _ => ih

/-- What resolution returns is good for the goals in every model of what the winning typer knows. -/
theorem Registry.resolve_good {registry : Registry β} {Good : β → Term → Prop}
    (sustains : registry.Sustains Good) (rulesOver : registry.Over Term.SchemeFree) {typer : Typer}
    (sound : typer.Sound .senses) {goals : List Term} (free : ∀ g ∈ goals, g.SchemeFree)
    {limit : Nat} {report report' : Report} {branch : Typer} {values : List β}
    (returned : registry.resolve limit typer goals report = .ok (branch, values) report') :
    Learned .senses typer branch ∧ ∀ θ, Models θ branch.classes →
      List.Forall₂ Good values (goals.map (Term.sense θ)) := by
  by_cases nothing : goals = []
  · subst nothing
    cases returned
    exact ⟨.refl _ typer, fun _ _ => .nil⟩
  rw [resolve_apply registry limit typer nothing report] at returned
  simp only [bind, EStateM.bind] at returned
  split at returned
  · next ending t ran =>
    obtain ⟨k, state, rfl, rfl, built⟩ := Resolution.won_of_conclude returned
    rw [explore_apply] at ran
    obtain ⟨-, faithful⟩ := Resolution.holds_of_won
      (fun here expanded _ new => SearchState.Faithful.opened here sound rulesOver expanded new)
      ran (List.forall_mem_singleton.mpr (faithful_start typer free))
    refine ⟨faithful.learned, fun θ models => List.forall₂_map_right_iff.mpr ?_⟩
    refine (forall₂_of_mapM_some built).flip.imp fun value goal => good_evidence sustains ?_ _
    intro key choice found
    obtain ⟨registered, fits⟩ := faithful.chosen key choice found
    exact ⟨registered, fits θ models⟩
  · cases returned

end TypedCalls
