import TypedCalls.Proofs.Instance.Opening
import TypedCalls.Proofs.Instance.Search
import TypedCalls.Proofs.Typer.Supply

/-!
The states that a search visits, and the names in them.

Every branch of a search has a typer of its own, and different branches give out the same names.
Still each state is in order by itself: the counter of its typer is ahead of all names in what this
typer knows and in the outstanding goals (`aheadOf_of_visited`). So the same is true of the typer
that resolution answers with (`Registry.learned_of_resolve`).
-/

set_option autoImplicit false

namespace TypedCalls

open Typer (Learned)

variable {β : Type}

/-- No rule mentions a name in the form of a made-up one, free or bound. -/
def Registry.NamesGiven (registry : Registry β) : Prop :=
  ∀ inst ∈ registry, ∀ t ∈ inst.rule.terms, ∀ v ∈ t.names, ¬v.MadeUp

/-- The terms of a goal: as created, as known now, and its ancestors. -/
def Goal.terms (goal : Goal) : List Term := goal.key :: goal.current :: goal.path

namespace Resolution

/-- The states that a search for some goals may come to: the first one, and those that attempts at a
goal of such a state open. -/
inductive Visited (registry : Registry β) (typer : Typer) (goals : List Term) :
    SearchState β → Prop
  | start : Visited registry typer goals (.start typer goals)
  | opened {state next : SearchState β} {sel : Goal × List Goal} {inst : Instance β}
      {report report' : Report} : Visited registry typer goals state →
      sel ∈ selections (ordered state) → inst ∈ registry.candidatesFor sel.1.current →
      attempt state sel.1 sel.2 inst report = .ok (.opened next) report' →
      Visited registry typer goals next

def Ending.states : Ending β → List (SearchState β)
  | .won _ state => [state]
  | .lost _ waiting _ _ => waiting

theorem visited_of_explore {registry : Registry β} {limit : Nat} {typer : Typer}
    {goals : List Term} {ending : Ending β} {report report' : Report}
    (ran : registry.explore limit typer goals report = .ok ending report') :
    ∀ state ∈ ending.states, Visited registry typer goals state := by
  rw [Registry.explore_apply] at ran
  have kept := search_induction (Q := fun waiting => ∀ s ∈ waiting, Visited registry typer goals s)
    (fun {_ _ state _} taken _ expanded visited next member => by
      obtain ⟨perm, -⟩ := takeLeast_spec taken
      rcases List.mem_append.mp member with old | new
      · exact visited next (perm.symm.subset (List.mem_cons_of_mem _ old))
      · obtain ⟨sel, selected, inst, candidate, r, r', opened⟩ := expanded.opened next new
        have here := visited state (perm.symm.subset (List.mem_cons_self ..))
        exact here.opened selected candidate opened)
    ran (List.forall_mem_singleton.mpr .start)
  rcases kept with ⟨_, state, _, last, rfl, -, visited, taken⟩ | ⟨_, last, _, _, rfl, visited, -⟩
  · obtain ⟨perm, -⟩ := takeLeast_spec taken
    exact List.forall_mem_singleton.mpr (visited state (perm.symm.subset (List.mem_cons_self ..)))
  · exact visited

end Resolution

open Resolution (Visited)

/-- A state whose typer has come from another by lessons and by giving out names, and whose goals
have only names that were given out. -/
structure SearchState.WellNumbered (typer : Typer) (state : SearchState β) : Prop where
  learned : Learned .namesOlder typer state.typer
  goals : ∀ g ∈ state.goals, ∀ t ∈ g.terms, t.NamesOlder state.typer.counter

section

variable {registry : Registry β} {typer : Typer} {goals : List Term} {state : SearchState β}

private theorem SearchState.wellNumbered_start (older : ∀ g ∈ goals, g.NamesOlder typer.counter) :
    (SearchState.start typer goals : SearchState β).WellNumbered typer := by
  refine ⟨.refl _ typer, List.forall_mem_map.mpr fun g member => ?_⟩
  have here := older g member
  exact List.forall_mem_cons.mpr ⟨here, List.forall_mem_singleton.mpr here⟩

private theorem SearchState.WellNumbered.advance (numbered : state.WellNumbered typer)
    (sound : typer.Sound .namesOlder) {goal : Goal} {rest : List Goal}
    (selected : (goal :: rest).Perm state.goals) {inst : Instance β}
    (given : ∀ t ∈ inst.rule.terms, ∀ v ∈ t.names, ¬v.MadeUp) {report : Report} {s : Session}
    (unified : Typing.unify goal.current
      (inst.rule.returns.subst (state.typer.freshFor .unification inst.rule.typeParams).1)
      (.start (state.typer.freshFor .unification inst.rule.typeParams).2 report) = .ok () s) :
    (Resolution.advance state goal rest inst (inst.rule.dependencies.map
      (Term.subst (state.typer.freshFor .unification inst.rule.typeParams).1))
        s.typer).WellNumbered typer := by
  have opened {t : Term} (term : t ∈ inst.rule.terms) :=
    (Term.namesOlder_of_not_madeUp (given t term) state.typer.counter).subst_freshFor .unification
      inst.rule.typeParams
  obtain ⟨here, others⟩ :=
    List.forall_mem_cons.mp fun g member => numbered.goals g (selected.subset member)
  have named := Typer.learned_freshFor .namesOlder state.typer .unification inst.rule.typeParams
  have soundNamed := named.sound (numbered.learned.sound sound)
  have keeps := Typing.honours_unify .namesOlder goal.current _
    (.start (state.typer.freshFor .unification inst.rule.typeParams).2 report) soundNamed
    (named.fit (here goal.current (by simp [Goal.terms]))) (opened (List.mem_cons_self ..))
  rw [unified] at keeps
  have taught := keeps.success.1
  have learned := named.trans taught
  have sound' := taught.sound soundNamed
  refine ⟨numbered.learned.trans learned, fun g member => ?_⟩
  rcases Resolution.mem_goals_advance.mp member with ⟨other, inside, rfl⟩ | ⟨d, inside, rfl⟩
  · have older : ∀ t ∈ other.terms, t.NamesOlder s.typer.counter :=
      fun t term => (others other inside t term).mono learned.counter
    simp only [Goal.terms, List.forall_mem_cons] at older ⊢
    exact ⟨older.1, Typer.namesOlder_read sound' older.2.1, older.2.2⟩
  · obtain ⟨t, dependency, rfl⟩ := List.mem_map.mp inside
    have older := Typer.namesOlder_read sound'
      ((opened (List.mem_cons_of_mem _ dependency)).mono taught.counter)
    have lineage : ∀ t ∈ goal.path ++ [goal.current], t.NamesOlder s.typer.counter := by
      intro t term
      refine (here t ?_).mono learned.counter
      simpa [Goal.terms, or_comm, or_assoc] using Or.inr term
    simp only [Goal.terms, List.forall_mem_cons]
    exact ⟨older, older, lineage⟩

private theorem SearchState.wellNumbered_of_visited (given : registry.NamesGiven)
    (sound : typer.Sound .namesOlder) (older : ∀ g ∈ goals, g.NamesOlder typer.counter)
    (visited : Visited registry typer goals state) : state.WellNumbered typer := by
  induction visited with
  | start => exact wellNumbered_start older
  | opened _ selected candidate ran ih =>
    obtain ⟨s, unified, rfl⟩ := Resolution.attempt_opened ran
    exact ih.advance sound (Resolution.perm_of_mem_selections_ordered selected)
      (given _ (Registry.mem_candidatesFor.mp candidate).1) unified

/-- In every state of a search the counter is ahead of the names that its typer knows and of those
in its outstanding goals. -/
theorem Resolution.aheadOf_of_visited (given : registry.NamesGiven) (numbered : typer.WellNumbered)
    (older : ∀ g ∈ goals, g.NamesOlder typer.counter)
    (visited : Visited registry typer goals state) :
    state.typer.AheadOf (state.goals.flatMap Goal.terms) := by
  obtain ⟨learned, outstanding⟩ :=
    SearchState.wellNumbered_of_visited given numbered.sound older visited
  refine (learned.wellNumbered numbered).aheadOf fun t member => ?_
  obtain ⟨g, inside, term⟩ := List.mem_flatMap.mp member
  exact outstanding g inside t term

/-- The typer that resolution answers with has learned, and has given out the names it uses. -/
theorem Registry.learned_of_resolve (given : registry.NamesGiven)
    (sound : typer.Sound .namesOlder) (older : ∀ g ∈ goals, g.NamesOlder typer.counter)
    {limit : Nat} {found : Typer × List β} {report report' : Report}
    (returned : registry.resolve limit typer goals report = .ok found report') :
    Learned .namesOlder typer found.1 := by
  by_cases nothing : goals = []
  · subst nothing
    cases returned
    exact .refl _ typer
  · obtain ⟨k, state, mid, explored, same⟩ := explored_of_resolve nothing returned
    have visited := Resolution.visited_of_explore explored state (List.mem_singleton_self _)
    rw [same]
    exact (SearchState.wellNumbered_of_visited given sound older visited).learned

end

end TypedCalls
