import Mathlib.Algebra.GroupWithZero.Nat
import Mathlib.Tactic.Common
import TypedCalls.Proofs.Descent
import TypedCalls.Proofs.Instance.Search
import TypedCalls.Proofs.Succeeding

/-!
Choices of a winning state can be built from.

Goals that were created alike share one choice, and a later one takes the place of an earlier one, so
the choices of a state may come from different lineages. All the same no choice depends on itself.
Let a choice be dated by the depth at which it was made last. What a choice brings is still to be met,
or was chosen for at a later date (`SearchState.Dated`), and in a winning state nothing is still to be
met. So the dates rise along all dependencies, and evidence can be built for every key
(`Registry.won_can_be_built`), also component by component, dependencies first.
-/

set_option autoImplicit false

namespace TypedCalls

variable {β : Type}

namespace Choices

def Needs (chosen : Choices β) (key k : Term) : Prop :=
  ∃ choice, chosen.get? key = some choice ∧ k ∈ choice.subgoals

/-- Every key that a choice brings has a choice itself, and no key depends on itself. -/
structure Buildable (chosen : Choices β) : Prop where
  closed : ∀ key k, chosen.Needs key k → (chosen.get? k).isSome = true
  acyclic : ∀ key, ¬Relation.TransGen chosen.Needs key key

end Choices

/-! Dates. -/

namespace SearchState

/-- The goals asked for, and those that choices bring, are still to be met or have a choice. What a
choice brings was chosen for later than the choice itself was made. -/
structure Dated (asked : List Term) (state : SearchState β) (date : Term → Nat) : Prop where
  past : ∀ key choice, state.chosen.get? key = some choice → date key < state.depth
  asked : ∀ g ∈ asked, g ∈ state.goals.map Goal.key ∨ (state.chosen.get? g).isSome = true
  brought : ∀ key k, state.chosen.Needs key k →
    k ∈ state.goals.map Goal.key ∨ (state.chosen.get? k).isSome = true ∧ date key < date k

variable {asked : List Term} {state : SearchState β} {date : Term → Nat}

private theorem dated_start (typer : Typer) (asked : List Term) (date : Term → Nat) :
    (start typer asked : SearchState β).Dated asked date := by
  refine ⟨fun key choice found => (by cases found), fun g member => ?_, ?_⟩
  · exact .inl (by simpa [start] using member)
  · rintro key k ⟨choice, found, -⟩
    cases found

private theorem mem_keys_advance {goal : Goal} {rest : List Goal} {inst : Instance β}
    {dependencies : List Term} {typer : Typer} {k : Term} :
    k ∈ (Resolution.advance state goal rest inst dependencies typer).goals.map Goal.key ↔
      k ∈ rest.map Goal.key ∨ k ∈ dependencies.map typer.read := by
  simp [Resolution.advance]

private theorem get?_chosen_advance {goal : Goal} {rest : List Goal} {inst : Instance β}
    {dependencies : List Term} {typer : Typer} {k : Term} :
    (Resolution.advance state goal rest inst dependencies typer).chosen.get? k =
      if k = goal.key then some ⟨inst, dependencies.map typer.read⟩ else state.chosen.get? k := by
  simp [Resolution.advance, Choices.get?_insert, Function.comp_def]

private theorem Dated.advance (dated : state.Dated asked date) {goal : Goal} {rest : List Goal}
    (perm : (goal :: rest).Perm state.goals) (inst : Instance β) (dependencies : List Term)
    (typer : Typer) :
    (Resolution.advance state goal rest inst dependencies typer).Dated asked
      (Function.update date goal.key state.depth) := by
  have open_cases {k : Term} (open' : k ∈ state.goals.map Goal.key) :
      k = goal.key ∨ k ∈ rest.map Goal.key := by
    have among := (perm.map Goal.key).symm.subset open'
    simpa using among
  refine ⟨fun key choice found => ?_, fun g member => ?_, ?_⟩
  · rw [get?_chosen_advance] at found
    by_cases here : key = goal.key
    · subst here
      rw [Function.update_self]
      exact Nat.lt_succ_self _
    · rw [if_neg here] at found
      rw [Function.update_of_ne here]
      exact Nat.lt_succ_of_lt (dated.past key choice found)
  · rw [mem_keys_advance, get?_chosen_advance]
    by_cases here : g = goal.key
    · exact .inr (by simp [here])
    · rw [if_neg here]
      rcases dated.asked g member with waiting | met
      · exact .inl (.inl ((open_cases waiting).resolve_left here))
      · exact .inr met
  · rintro key k ⟨choice, found, brings⟩
    rw [get?_chosen_advance] at found
    rw [mem_keys_advance, get?_chosen_advance]
    by_cases here : key = goal.key
    · rw [if_pos here] at found
      cases found
      exact .inl (.inr brings)
    · rw [if_neg here] at found
      have before := dated.past key choice found
      rw [Function.update_of_ne here]
      by_cases now : k = goal.key
      · subst now
        rw [if_pos rfl, Function.update_self]
        exact .inr ⟨rfl, before⟩
      · rw [if_neg now, Function.update_of_ne now]
        rcases dated.brought key k ⟨choice, found, brings⟩ with waiting | later
        · exact .inl (.inl ((open_cases waiting).resolve_left now))
        · exact .inr later

private theorem exists_dated_opened {registry : Registry β} (dates : ∃ date, state.Dated asked date)
    {found : Resolution.Findings β} (expanded : Resolution.Expanded registry state found)
    (next : SearchState β) (member : next ∈ found.opened) : ∃ date, next.Dated asked date := by
  obtain ⟨date, dated⟩ := dates
  obtain ⟨sel, selected, inst, candidate, r, r', ran⟩ := expanded.opened next member
  obtain ⟨s, unified, rfl⟩ := Resolution.attempt_opened ran
  exact ⟨_, dated.advance (Resolution.perm_of_mem_selections_ordered selected) inst _ _⟩

private theorem Dated.buildable (dated : state.Dated asked date) (finished : state.goals = []) :
    (∀ g ∈ asked, (state.chosen.get? g).isSome = true) ∧ state.chosen.Buildable := by
  have none (k : Term) : k ∉ state.goals.map Goal.key := by simp [finished]
  have rises : ∀ key k, state.chosen.Needs key k →
      (state.chosen.get? k).isSome = true ∧ date key < date k := fun key k needs =>
    (dated.brought key k needs).resolve_left (none k)
  refine ⟨fun g member => (dated.asked g member).resolve_left (none g),
    fun key k needs => (rises key k needs).1, ?_⟩
  refine acyclic_of_rank (fun key => state.depth - date key) fun key k needs => ?_
  obtain ⟨met, later⟩ := rises key k needs
  obtain ⟨choice, found⟩ := Option.isSome_iff_exists.mp met
  have past := dated.past k choice found
  omega

end SearchState

/-! Building. -/

private theorem mapM_congr {α γ : Type} {f g : α → Option γ} {xs : List α}
    (same : ∀ x ∈ xs, f x = g x) : xs.mapM f = xs.mapM g := by
  induction xs with
  | nil => rfl
  | cons x xs ih =>
    obtain ⟨here, there⟩ := List.forall_mem_cons.mp same
    rw [List.mapM_cons, List.mapM_cons, here, ih there]

private theorem isSome_mapM {α γ : Type} {f : α → Option γ} {xs : List α}
    (each : ∀ x ∈ xs, (f x).isSome = true) : (xs.mapM f).isSome = true := by
  induction xs with
  | nil => rfl
  | cons x xs ih =>
    obtain ⟨here, there⟩ := List.forall_mem_cons.mp each
    obtain ⟨y, found⟩ := Option.isSome_iff_exists.mp here
    obtain ⟨ys, others⟩ := Option.isSome_iff_exists.mp (ih there)
    rw [List.mapM_cons, found, others]
    rfl

namespace Choices

variable {chosen : Choices β}

private theorem mem_keys_of_get? {key : Term} {choice : Choice β}
    (found : chosen.get? key = some choice) : key ∈ chosen.map Prod.fst := by
  induction chosen with
  | nil => cases found
  | cons entry rest ih =>
    rw [get?, List.lookup_cons] at found
    cases same : key == entry.1 with
    | true => exact List.mem_map.mpr ⟨entry, List.mem_cons_self .., (beq_iff_eq.mp same).symm⟩
    | false =>
      rw [same] at found
      exact List.mem_cons_of_mem _ (ih found)

private theorem Buildable.evidence_settles (buildable : chosen.Buildable) {key : Term}
    (met : (chosen.get? key).isSome = true) :
    (chosen.evidence chosen.length key).isSome = true ∧
      ∀ m, chosen.length ≤ m → chosen.evidence m key = chosen.evidence chosen.length key := by
  obtain ⟨rank, bounded, positive, falls⟩ := exists_rank_of_acyclic
    (fun _ _ needs => mem_keys_of_get? needs.choose_spec.1) buildable.acyclic
  have settles (n : Nat) : ∀ key, (chosen.get? key).isSome = true → rank key ≤ n →
      (chosen.evidence n key).isSome = true ∧
        ∀ m, n ≤ m → chosen.evidence m key = chosen.evidence n key := by
    induction n with
    | zero =>
      intro key met few
      obtain ⟨choice, found⟩ := Option.isSome_iff_exists.mp met
      exact absurd (positive key (mem_keys_of_get? found)) (by omega)
    | succ n ih =>
      intro key met few
      obtain ⟨choice, found⟩ := Option.isSome_iff_exists.mp met
      have parts : ∀ k ∈ choice.subgoals, (chosen.evidence n k).isSome = true ∧
          ∀ m, n ≤ m → chosen.evidence m k = chosen.evidence n k := by
        intro k brought
        have needs : chosen.Needs key k := ⟨choice, found, brought⟩
        have fewer := falls key k needs
        exact ih k (buildable.closed key k needs) (by omega)
      refine ⟨?_, fun m le => ?_⟩
      · rw [evidence, found]
        simpa using isSome_mapM fun k brought => (parts k brought).1
      · obtain ⟨m, rfl⟩ : ∃ k, m = k + 1 := ⟨m - 1, by omega⟩
        rw [evidence, evidence, found]
        dsimp only
        rw [mapM_congr fun k brought => (parts k brought).2 m (by omega)]
  exact settles _ key met (List.length_map Prod.fst ▸ bounded key)

private theorem Buildable.evidence_eq (buildable : chosen.Buildable) {key : Term}
    {choice : Choice β} (found : chosen.get? key = some choice) :
    ∃ values, choice.subgoals.mapM (chosen.evidence chosen.length) = some values ∧
      chosen.evidence chosen.length key = some (choice.inst.build values) := by
  obtain ⟨values, parts⟩ := Option.isSome_iff_exists.mp (isSome_mapM fun k brought =>
    (buildable.evidence_settles (buildable.closed key k ⟨choice, found, brought⟩)).1)
  obtain ⟨-, settled⟩ := buildable.evidence_settles (Option.isSome_iff_exists.mpr ⟨choice, found⟩)
  refine ⟨values, parts, ?_⟩
  rw [← settled (chosen.length + 1) (Nat.le_succ _), evidence, found]
  dsimp only
  rw [parts, Option.map_some]

/-- A listing of all keys by strongly connected components, each after those it depends on. -/
structure DependenciesFirst (chosen : Choices β) (components : List (List Term)) : Prop where
  nonempty : ∀ component ∈ components, component ≠ []
  distinct : components.flatten.Nodup
  covers : ∀ key, key ∈ components.flatten ↔ (chosen.get? key).isSome = true
  connected : ∀ component ∈ components, ∀ a ∈ component, ∀ b ∈ component,
    Relation.ReflTransGen chosen.Needs a b
  ordered : ∀ before component after, components = before ++ component :: after →
    ∀ key ∈ component, ∀ k, chosen.Needs key k → k ∈ component ∨ k ∈ before.flatten

private theorem DependenciesFirst.exists_eq_singleton {components : List (List Term)}
    (first : chosen.DependenciesFirst components) (buildable : chosen.Buildable)
    {component : List Term} (member : component ∈ components) : ∃ key, component = [key] := by
  obtain ⟨a, others, rfl⟩ := List.exists_cons_of_ne_nil (first.nonempty component member)
  cases others with
  | nil => exact ⟨a, rfl⟩
  | cons b rest =>
    have apart : a ≠ b := by
      have distinct := (List.nodup_flatten.mp first.distinct).1 _ member
      simp only [List.nodup_cons, List.mem_cons, not_or] at distinct
      exact distinct.1.1
    have onward := first.connected _ member a (by simp) b (by simp)
    have back := first.connected _ member b (by simp) a (by simp)
    obtain equal | onward := Relation.reflTransGen_iff_eq_or_transGen.mp onward
    · exact absurd equal.symm apart
    · exact absurd (onward.trans_left back) (buildable.acyclic a)

private theorem DependenciesFirst.assemble_eq_ok {components : List (List Term)}
    (first : chosen.DependenciesFirst components) (buildable : chosen.Buildable)
    {before after : List (List Term)} (split : components = before ++ after)
    {built : List (Term × β)}
    (known : ∀ key ∈ before.flatten, built.lookup key = chosen.evidence chosen.length key) :
    ∃ final, chosen.assemble after built = .ok final ∧
      ∀ key ∈ components.flatten, final.lookup key = chosen.evidence chosen.length key := by
  induction after generalizing before built with
  | nil =>
    refine ⟨built, rfl, ?_⟩
    rwa [split, List.append_nil]
  | cons component after ih =>
    have member : component ∈ components := by simp [split]
    obtain ⟨key, rfl⟩ := first.exists_eq_singleton buildable member
    have met : (chosen.get? key).isSome = true :=
      (first.covers key).mp (List.mem_flatten.mpr ⟨_, member, List.mem_singleton_self key⟩)
    obtain ⟨choice, found⟩ := Option.isSome_iff_exists.mp met
    have outside : key ∉ choice.subgoals := fun own =>
      buildable.acyclic key (.single ⟨choice, found, own⟩)
    have looked : ∀ k ∈ choice.subgoals,
        built.lookup k = chosen.evidence chosen.length k := by
      intro k brought
      rcases first.ordered before [key] after split key (List.mem_singleton_self key) k
        ⟨choice, found, brought⟩ with here | earlier
      · exact absurd (List.mem_singleton.mp here ▸ brought) outside
      · exact known k earlier
    obtain ⟨values, parts, value⟩ := buildable.evidence_eq found
    have one : chosen.assembleOne built [key] = .ok (key, choice.inst.build values) := by
      rw [assembleOne, found]
      dsimp only
      rw [if_neg (by simpa using outside), mapM_congr looked, parts]
    have known' : ∀ k ∈ (before ++ [[key]]).flatten,
        List.lookup k ((key, choice.inst.build values) :: built) =
          chosen.evidence chosen.length k := by
      intro k among
      rw [List.lookup_cons]
      cases same : k == key with
      | true => rw [beq_iff_eq.mp same, value]
      | false =>
        have ne : k ≠ key := beq_eq_false_iff_ne.mp same
        exact known k (by simpa [ne] using among)
    obtain ⟨final, ran, all⟩ := ih (by simp [split]) known'
    refine ⟨final, ?_, all⟩
    rw [assemble, one]
    exact ran

end Choices

/-- A state that wins has made a choice for every goal asked for and for every key that a choice brings,
and no key depends on itself. So evidence is built for all goals, and the same evidence is built along
any listing by components in which dependencies come first: no cycle is met, and every look-up finds
what was built before. -/
theorem Registry.won_can_be_built (registry : Registry β) (limit : Nat) (typer : Typer)
    (goals : List Term) {report report' : Report} {k : Nat} {state : SearchState β}
    (won : registry.explore limit typer goals report = .ok (.won k state) report') :
    state.goals = [] ∧ (∀ g ∈ goals, (state.chosen.get? g).isSome = true) ∧
      state.chosen.Buildable ∧
      ∃ values, (∃ r, Resolution.conclude goals (.won k state) report' =
          .ok (state.typer, values) r) ∧
        ∀ components, state.chosen.DependenciesFirst components →
          state.chosen.buildAlong components goals = .ok values := by
  rw [explore_apply] at won
  obtain ⟨finished, date, dated⟩ := Resolution.holds_of_won
    (P := fun state => ∃ date, state.Dated goals date)
    (fun dates expanded => SearchState.exists_dated_opened dates expanded) won
    (fun s member => ⟨fun _ => 0, List.mem_singleton.mp member ▸ SearchState.dated_start ..⟩)
  obtain ⟨asked, buildable⟩ := dated.buildable finished
  obtain ⟨values, built⟩ := Option.isSome_iff_exists.mp
    (isSome_mapM fun g member => (buildable.evidence_settles (asked g member)).1)
  refine ⟨finished, asked, buildable, values, ?_, fun components first => ?_⟩
  · simp only [Resolution.conclude, bind, EStateM.bind]
    rw [built]
    exact ⟨_, rfl⟩
  · have known : ∀ key ∈ ([] : List (List Term)).flatten,
        ([] : List (Term × β)).lookup key = state.chosen.evidence state.chosen.length key := by
      simp
    obtain ⟨final, ran, all⟩ := first.assemble_eq_ok buildable (List.nil_append _).symm known
    have looked : ∀ g ∈ goals,
        final.lookup g = state.chosen.evidence state.chosen.length g := fun g member =>
      all g ((first.covers g).mpr (asked g member))
    rw [Choices.buildAlong, ran]
    simp only [bind, Except.bind]
    rw [mapM_congr looked, built]

def Resolution.Ending.chosen? : Resolution.Ending β → Option (Choices β)
  | .won _ state => some state.chosen
  | .lost .. => none

/-- A list of integers is to be shown, and an integer, which the list brings as well: the two goals for
the integer share one choice, which is made twice. -/
theorem Registry.won_can_be_built_shared :
    let a : TypeVar := ⟨"a"⟩
    let shown (t : Term) : Term := .con "Show" [t]
    let list (t : Term) : Term := .con "list" [t]
    let int : Term := .named "int"
    let each : Instance Nat :=
      ⟨⟨[a], [shown (.use a)], shown (list (.use a))⟩, fun parts => parts.sum + 1⟩
    let one : Instance Nat := ⟨⟨[], [], shown int⟩, fun _ => 1⟩
    let goals := [shown (list int), shown int]
    let components := [[shown int], [shown (list int)]]
    ∃ k state report, Registry.explore [each, one] 300 .fresh goals .quiet =
        .ok (.won k state) report ∧
      state.depth = 3 ∧ state.chosen.DependenciesFirst components ∧
      ∃ r, Resolution.conclude goals (.won k state) report = .ok (state.typer, [2, 1]) r := by
  intro a shown list int each one goals components
  let chosen : Choices Nat := [(shown int, ⟨one, []⟩), (shown (list int), ⟨each, [shown int]⟩)]
  have first : chosen.DependenciesFirst components := by
    have needs : ∀ key k, chosen.Needs key k → key = shown (list int) ∧ k = shown int := by
      rintro key k ⟨choice, found, brings⟩
      by_cases here : key = shown int
      · subst here
        cases found
        cases brings
      · by_cases there : key = shown (list int)
        · subst there
          cases found
          exact ⟨rfl, List.mem_singleton.mp brings⟩
        · simp [Choices.get?, chosen, List.lookup_cons, beq_false_of_ne here,
            beq_false_of_ne there] at found
    refine ⟨by simp [components], by decide, fun key => ?_, fun component member => ?_, ?_⟩
    · by_cases here : key = shown int
      · subst here
        exact ⟨fun _ => rfl, fun _ => by simp [components]⟩
      · by_cases there : key = shown (list int)
        · subst there
          exact ⟨fun _ => rfl, fun _ => by simp [components]⟩
        · simp [components, chosen, Choices.get?, List.lookup_cons, here, there,
            beq_false_of_ne here, beq_false_of_ne there]
    · simp only [components, List.mem_cons, List.not_mem_nil, or_false] at member
      rcases member with rfl | rfl <;> simpa using .refl
    · rintro before component after split key member k needed
      obtain ⟨rfl, rfl⟩ := needs key k needed
      cases before with
      | nil =>
        obtain ⟨rfl, -⟩ := List.cons.inj split
        exact .inl (List.mem_singleton_self _)
      | cons front before =>
        obtain ⟨rfl, -⟩ := List.cons.inj split
        exact .inr (by simp)
  have run : ((Registry.explore [each, one] 300 .fresh goals).run' .quiet).map
      (fun ending => (ending.chosen?, ending.depth?)) = some (some chosen, some 3) := by
    with_unfolding_all rfl
  have value : chosen.buildAlong components goals = .ok [2, 1] := rfl
  obtain ⟨ending, report, explored, outcome⟩ := exists_ok_of_run' run
  obtain ⟨found, depth⟩ := Prod.mk.inj outcome
  cases ending with
  | lost => cases found
  | won k state =>
    have same : state.chosen = chosen := Option.some.inj found
    have listed : state.chosen.DependenciesFirst components := same ▸ first
    obtain ⟨-, -, -, values, concluded, built⟩ :=
      won_can_be_built [each, one] 300 .fresh goals explored
    have along := built components listed
    rw [same, value] at along
    obtain rfl : [2, 1] = values := Except.ok.inj along
    exact ⟨k, state, report, explored, Option.some.inj depth, listed, concluded⟩

end TypedCalls
