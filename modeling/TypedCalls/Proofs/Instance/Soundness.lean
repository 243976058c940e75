import Mathlib.Algebra.GroupWithZero.Nat
import Mathlib.Tactic.Common
import TypedCalls.Proofs.Instance.Derivation
import TypedCalls.Proofs.Instance.Search

/-!
What resolution returns is built from derivations.

Goals are known by the term they were created with, while they are solved through what they read as
later. Both are the same under every solution of what the typer of a state knows, and each choice
made so far is right under every such solution (`SearchState.Sound`). Later classes have fewer
solutions, so a step can keep all choices as they are (`Sound.advance`).
-/

set_option autoImplicit false

namespace TypedCalls

open Problem
open Classes (Satisfies)

variable {β : Type}

/-- Two terms read as the same, up to variables that are known to be the same. -/
def Classes.ReadAlike (s : Classes) (a b : Term) : Prop :=
  s.identify (s.read a) = s.identify (s.read b)

theorem Classes.readAlike_iff {s : Classes} {a b : Term} (freeA : a.QuantifierFree)
    (freeB : b.QuantifierFree) : s.ReadAlike a b ↔ a.fill s.solution = b.fill s.solution := by
  rw [ReadAlike, identify_read s freeA, identify_read s freeB]

/-- For some terms in the place of the type parameters, and whatever solution of the classes is
taken, the instance returns the key and its dependencies are the keys that the choice brings. -/
structure Choice.Justified (registry : Registry β) (s : Classes) (key : Term)
    (choice : Choice β) (σ : TypeVar → Term) : Prop where
  registered : choice.inst ∈ registry
  free : ∀ v, (σ v).QuantifierFree
  returns : ∀ θ, Satisfies θ s →
    (choice.inst.rule.specialize σ choice.inst.rule.returns).fill θ = key.fill θ
  dependencies : ∀ θ, Satisfies θ s →
    (choice.inst.rule.dependencies.map (choice.inst.rule.specialize σ)).map (Term.fill θ) =
      choice.subgoals.map (Term.fill θ)

/-- A state whose goals are still the goals they were created as, and whose choices are right. -/
structure SearchState.Sound (registry : Registry β) (state : SearchState β) : Prop where
  rigid : state.typer.rigid = []
  sane : Sane Term.QuantifierFree state.typer.classes
  goals : ∀ g ∈ state.goals, g.current.QuantifierFree ∧
    ∀ θ, Satisfies θ state.typer.classes → g.key.fill θ = g.current.fill θ
  chosen : ∀ key choice, state.chosen.get? key = some choice →
    ∃ σ, choice.Justified registry state.typer.classes key σ

theorem sound_start {registry : Registry β} {typer : Typer} {goals : List Term}
    (reached : typer.Reached Term.QuantifierFree) (free : ∀ g ∈ goals, g.QuantifierFree) :
    (SearchState.start typer goals : SearchState β).Sound registry := by
  obtain ⟨rigid, sane⟩ := reached.sane (Typing.tame_builtFrom _)
  refine ⟨rigid, sane, fun g member => ?_, nofun⟩
  obtain ⟨t, inside, rfl⟩ := List.mem_map.mp member
  exact ⟨free t inside, fun _ _ => rfl⟩

namespace SearchState.Sound

variable {registry : Registry β} {state : SearchState β}

theorem advance (sound : state.Sound registry) (rulesOver : registry.Over Term.QuantifierFree)
    {goal : Goal} {rest : List Goal} (goals : (goal :: rest).Perm state.goals) {inst : Instance β}
    (registered : inst ∈ registry) {report : Report} {s : Session}
    (unified : Typing.unify goal.current
      (inst.rule.returns.subst (state.typer.freshFor .unification inst.rule.typeParams).1)
      (.start (state.typer.freshFor .unification inst.rule.typeParams).2 report) = .ok () s) :
    (Resolution.advance state goal rest inst (inst.rule.dependencies.map
      (Term.subst (state.typer.freshFor .unification inst.rule.typeParams).1)) s.typer).Sound
        registry := by
  obtain ⟨terms, given⟩ := rulesOver inst registered
  let σ := state.typer.opening .unification inst.rule.typeParams
  have images : ∀ v, (σ v).QuantifierFree := state.typer.builtFrom_opening _ _
  have special {t : Term} (term : t ∈ inst.rule.terms) : (inst.rule.specialize σ t).QuantifierFree :=
    inst.rule.builtFrom_specialize images (terms t term)
  rw [inst.rule.subst_freshFor_eq_specialize given] at unified ⊢
  obtain ⟨⟨free, created⟩, others⟩ :=
    List.forall_mem_cons.mp fun g member => sound.goals g (goals.subset member)
  obtain ⟨rigid, -, sane, solutions⟩ := Typing.unify_opened (Typing.tame_builtFrom _) sound.rigid
    sound.sane free (special (List.mem_cons_self ..)) unified
  have bounds : ∀ x t, s.typer.classes.bound? x = some t → t.QuantifierFree :=
    fun x t bound => (sane.bound bound).1
  have read {θ : TypeVar → Term} (satisfies : Satisfies θ s.typer.classes) {t : Term}
      (free : t.QuantifierFree) : (s.typer.read t).fill θ = t.fill θ :=
    Classes.fill_read sane.tidy sane.acyclic bounds satisfies free
  have freeRead {t : Term} (free : t.QuantifierFree) : (s.typer.read t).QuantifierFree := by
    rw [Typer.read, Classes.read_eq_fill]
    exact Term.builtFrom_fill free fun v _ =>
      Classes.builtFrom_reading sane.tidy sane.acyclic bounds v
  refine ⟨rigid, sane, fun g member => ?_, fun key choice found => ?_⟩
  · rcases List.mem_append.mp member with refreshed | brought
    · obtain ⟨g, inside, rfl⟩ := List.mem_map.mp refreshed
      obtain ⟨freeG, createdG⟩ := others g inside
      refine ⟨freeRead freeG, fun θ satisfies => ?_⟩
      rw [read satisfies freeG, createdG θ (solutions θ satisfies).1]
    · obtain ⟨d, inside, rfl⟩ := List.mem_map.mp brought
      rw [List.map_map] at inside
      obtain ⟨t, dependency, rfl⟩ := List.mem_map.mp inside
      exact ⟨freeRead (special (List.mem_cons_of_mem _ dependency)), fun _ _ => rfl⟩
  · rw [Resolution.advance, Choices.get?_insert] at found
    split at found
    · next here =>
      cases found
      refine ⟨σ, registered, images, fun θ satisfies => ?_, fun θ satisfies => ?_⟩
      · obtain ⟨before, agree⟩ := solutions θ satisfies
        rw [here, created θ before, agree]
      · simp only [List.map_map]
        apply List.map_congr_left
        intro t dependency
        exact (read satisfies (special (List.mem_cons_of_mem _ dependency))).symm
    · obtain ⟨τ, justified⟩ := sound.chosen key choice found
      exact ⟨τ, justified.registered, justified.free,
        fun θ satisfies => justified.returns θ (solutions θ satisfies).1,
        fun θ satisfies => justified.dependencies θ (solutions θ satisfies).1⟩

private theorem opened (sound : state.Sound registry)
    (rulesOver : registry.Over Term.QuantifierFree) {found : Resolution.Findings β}
    (expanded : Resolution.Expanded registry state found) {next : SearchState β}
    (member : next ∈ found.opened) : next.Sound registry := by
  obtain ⟨sel, selected, inst, candidate, r, r', ran⟩ := expanded.opened next member
  obtain ⟨s, unified, rfl⟩ := Resolution.attempt_opened ran
  exact sound.advance rulesOver (Resolution.perm_of_mem_selections_ordered selected)
    (Registry.mem_candidatesFor.mp candidate).1 unified

theorem solutions_of_attempt (sound : state.Sound registry)
    (rulesOver : registry.Over Term.QuantifierFree) {goal : Goal} {rest : List Goal}
    (member : goal ∈ state.goals) {inst : Instance β} (registered : inst ∈ registry)
    {next : SearchState β} {r r' : Report}
    (ran : Resolution.attempt state goal rest inst r = .ok (.opened next) r') {θ : TypeVar → Term}
    (satisfies : Satisfies θ next.typer.classes) :
    Satisfies θ state.typer.classes ∧ ∃ ρ, inst.rule.returns.fill ρ = goal.key.fill θ := by
  obtain ⟨s, unified, rfl⟩ := Resolution.attempt_opened ran
  obtain ⟨terms, given⟩ := rulesOver inst registered
  have root : inst.rule.returns.QuantifierFree := terms _ (List.mem_cons_self ..)
  obtain ⟨free, created⟩ := sound.goals goal member
  rw [inst.rule.subst_freshFor_eq_specialize given] at unified
  obtain ⟨-, -, -, solutions⟩ := Typing.unify_opened (Typing.tame_builtFrom _) sound.rigid sound.sane
    free (inst.rule.builtFrom_specialize (state.typer.builtFrom_opening _ _) root) unified
  obtain ⟨before, agree⟩ := solutions θ satisfies
  rw [inst.rule.fill_specialize _ θ root, ← created θ before] at agree
  exact ⟨before, _, agree.symm⟩

end SearchState.Sound

theorem sound_of_search {registry : Registry β} (rulesOver : registry.Over Term.QuantifierFree)
    {n expansions k : Nat} {waiting : List (SearchState β)} {cycle : Option (List Term)}
    {deadEnd : Bool} {report report' : Report} {state : SearchState β}
    (ran : Resolution.search registry n expansions waiting cycle deadEnd report =
      .ok (.won k state) report')
    (start : ∀ s ∈ waiting, s.Sound registry) : state.Sound registry :=
  (Resolution.holds_of_won
    (fun sound expanded _ member => sound.opened rulesOver expanded member) ran start).2

section

variable {registry : Registry β} {s : Classes}

private theorem exists_derivations_of_single {evidence : Term → Option β}
    (single : ∀ {key goal value}, goal.QuantifierFree →
      goal.fill s.solution = key.fill s.solution → evidence key = some value →
      ∃ d : Derivation β, d.Meets registry s.ReadAlike goal ∧ d.value = value)
    {keys goals : List Term} {values : List β} (free : ∀ g ∈ goals, g.QuantifierFree)
    (same : goals.map (Term.fill s.solution) = keys.map (Term.fill s.solution))
    (built : keys.mapM evidence = some values) :
    ∃ ds, Derivation.MeetAll registry s.ReadAlike ds goals ∧ ds.map Derivation.value = values := by
  induction keys generalizing goals values with
  | nil =>
    obtain rfl : goals = [] := List.map_eq_nil_iff.mp same
    rw [List.mapM_nil] at built
    cases built
    exact ⟨[], trivial, rfl⟩
  | cons key keys ih =>
    match goals, same with
    | goal :: goals, same =>
      injection same with here there
      obtain ⟨freeHere, freeThere⟩ := List.forall_mem_cons.mp free
      rw [List.mapM_cons] at built
      obtain ⟨value, found, rest⟩ := Option.bind_eq_some_iff.mp built
      obtain ⟨others, later, equal⟩ := Option.bind_eq_some_iff.mp rest
      cases equal
      obtain ⟨d, meets, rfl⟩ := single freeHere here found
      obtain ⟨ds, meetAll, rfl⟩ := ih freeThere there later
      exact ⟨d :: ds, ⟨meets, meetAll⟩, rfl⟩

private theorem exists_derivation {chosen : Choices β} (sane : Sane Term.QuantifierFree s)
    (rulesOver : registry.Over Term.QuantifierFree)
    (justified : ∀ key choice, chosen.get? key = some choice →
      ∃ σ, choice.Justified registry s key σ)
    (n : Nat) {key goal : Term} {value : β} (free : goal.QuantifierFree)
    (same : goal.fill s.solution = key.fill s.solution)
    (built : chosen.evidence n key = some value) :
    ∃ d : Derivation β, d.Meets registry s.ReadAlike goal ∧ d.value = value := by
  have satisfies : Satisfies s.solution s := Classes.satisfies_solution sane.tidy sane.acyclic
    fun _ _ bound => (sane.bound bound).1
  -- the fuel of the evidence bounds the height of the tree
  induction n generalizing key goal value with
  | zero => cases built
  | succ n ih =>
    rw [Choices.evidence] at built
    split at built
    · cases built
    · next choice found =>
      obtain ⟨values, parts, rfl⟩ := Option.map_eq_some_iff.mp built
      obtain ⟨σ, chosen⟩ := justified key choice found
      obtain ⟨terms, -⟩ := rulesOver choice.inst chosen.registered
      have special {t : Term} (term : t ∈ choice.inst.rule.terms) :
          (choice.inst.rule.specialize σ t).QuantifierFree :=
        choice.inst.rule.builtFrom_specialize chosen.free (terms t term)
      have freeParts : ∀ g ∈ choice.inst.rule.dependencies.map (choice.inst.rule.specialize σ),
          g.QuantifierFree := by
        intro g member
        obtain ⟨t, dependency, rfl⟩ := List.mem_map.mp member
        exact special (List.mem_cons_of_mem _ dependency)
      obtain ⟨ds, meetAll, rfl⟩ := exists_derivations_of_single ih freeParts
        (chosen.dependencies _ satisfies) parts
      refine ⟨.node choice.inst σ ds, ⟨chosen.registered, ?_, meetAll⟩, ?_⟩
      · rw [Classes.readAlike_iff (special (List.mem_cons_self ..)) free,
          chosen.returns _ satisfies, same]
      · rw [Derivation.value, Derivation.values_eq_map]

end

/-- What resolution returns for goals without quantifiers is built from derivations of the goals. -/
theorem Registry.resolve_sound {registry : Registry β} (rulesOver : registry.Over Term.QuantifierFree)
    {typer : Typer} (reached : typer.Reached Term.QuantifierFree) {goals : List Term}
    (free : ∀ g ∈ goals, g.QuantifierFree) {limit : Nat} {report report' : Report}
    {branch : Typer} {values : List β}
    (returned : registry.resolve limit typer goals report = .ok (branch, values) report') :
    values.length = goals.length ∧
      ∃ ds, Derivation.MeetAll registry branch.classes.ReadAlike ds goals ∧
        values = ds.map Derivation.value := by
  suffices derived : ∃ ds, Derivation.MeetAll registry branch.classes.ReadAlike ds goals ∧
      ds.map Derivation.value = values by
    obtain ⟨ds, meetAll, rfl⟩ := derived
    refine ⟨?_, ds, meetAll, rfl⟩
    rw [List.length_map, (Derivation.meetAll_iff.mp meetAll).length_eq]
  by_cases nothing : goals = []
  · subst nothing
    cases returned
    exact ⟨[], trivial, rfl⟩
  rw [resolve_apply registry limit typer nothing report] at returned
  simp only [bind, EStateM.bind] at returned
  split at returned
  · next ending t ran =>
    obtain ⟨k, state, rfl, rfl, built⟩ := Resolution.won_of_conclude returned
    rw [explore_apply] at ran
    have sound := sound_of_search rulesOver ran fun s member =>
      List.mem_singleton.mp member ▸ sound_start reached free
    exact exists_derivations_of_single
      (exists_derivation sound.sane rulesOver sound.chosen state.chosen.length) free rfl built
  · cases returned

/-- Values are shown by counting: a list by its elements and one more, an integer by one. A typer that
knows `x` to be an integer finds out how to show a list of `x` and an integer that may be missing. -/
theorem Registry.resolve_sound_list :
    let a : TypeVar := ⟨"a"⟩
    let x : TypeVar := ⟨"x"⟩
    let shown (t : Term) : Term := .con "Show" [t]
    let list (t : Term) : Term := .con "list" [t]
    let registry : Registry Nat :=
      [⟨⟨[a], [shown (.use a)], shown (list (.use a))⟩, fun parts => parts.sum + 1⟩,
        ⟨⟨[a], [shown (.use a)], shown (Term.nullable (.use a))⟩, fun parts => parts.sum⟩,
        ⟨⟨[], [], shown (.named "int")⟩, fun _ => 1⟩]
    let typer := (Typing.remains (Typing.unify (.use x) (.named "int") (.start .fresh .quiet))).typer
    let goals := [shown (list (.use x)), shown (Term.nullable (.named "int"))]
    registry.Over Term.QuantifierFree ∧ typer.Reached Term.QuantifierFree ∧
      (∀ g ∈ goals, g.QuantifierFree) ∧
      ∃ branch report, registry.resolve 300 typer goals .quiet = .ok (branch, [2, 1]) report ∧
        ∃ ds, Derivation.MeetAll registry branch.classes.ReadAlike ds goals ∧
          [2, 1] = ds.map Derivation.value := by
  intro a x shown list registry typer goals
  have rulesOver : registry.Over Term.QuantifierFree := by
    have given : ¬a.MadeUp := TypeVar.not_madeUp_of_belongsTo fun family => by
      cases family <;> decide
    simp [Registry.Over, registry, shown, list, Rule.terms, Rule.names, Term.QuantifierFree,
      Term.BuiltFrom, Term.BuiltFromAll, Term.nullable, Term.freeVars, Term.freeVarsAll, given]
  have reached : typer.Reached Term.QuantifierFree :=
    .unified .quiet .refl trivial (by simp [Term.QuantifierFree, Term.BuiltFrom, Term.BuiltFromAll])
  have free : ∀ g ∈ goals, g.QuantifierFree := by
    simp [goals, shown, list, Term.QuantifierFree, Term.BuiltFrom, Term.BuiltFromAll, Term.nullable,
      Term.nullableHead]
  have answer : ((registry.resolve 300 typer goals).run' .quiet).map Prod.snd = some [2, 1] := by
    decide +kernel
  obtain ⟨⟨branch, values⟩, report, returned, rfl⟩ := exists_ok_of_run' answer
  exact ⟨rulesOver, reached, free, branch, report, returned,
    (resolve_sound rulesOver reached free returned).2⟩

end TypedCalls
