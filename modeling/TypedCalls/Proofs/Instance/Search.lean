import Mathlib.Data.List.Forall2
import Mathlib.Data.List.TakeDrop
import Mathlib.Data.List.TakeWhile
import TypedCalls.Instance.Resolution
import TypedCalls.Proofs.Succeeding

/-!
What one expansion of the search does, and what a whole search keeps.

`mem_opened_ofAttempts` lists the states that an expansion opens, and `takeLeast_spec` says which
state is taken next. A property of the waiting states that expansions keep holds when the search ends
(`search_induction`).
-/

set_option autoImplicit false

namespace TypedCalls

private theorem perm_insertBy {α : Type} (key : α → Nat) (x : α) (ys : List α) :
    (insertBy key x ys).Perm (x :: ys) := by
  induction ys with
  | nil => exact .refl _
  | cons y ys ih =>
    rw [insertBy]
    split
    · exact .refl _
    · exact (ih.cons y).trans (.swap x y ys)

theorem perm_sortedBy {α : Type} (key : α → Nat) (xs : List α) : (sortedBy key xs).Perm xs := by
  induction xs with
  | nil => exact .refl _
  | cons x xs ih => exact (perm_insertBy key x _).trans (ih.cons x)

theorem forall₂_of_mapM {ε σ α γ : Type} {f : α → EStateM ε σ γ} {xs : List α} {s s' : σ}
    {ys : List γ} (ran : xs.mapM f s = .ok ys s') :
    List.Forall₂ (fun x y => ∃ t t', f x t = .ok y t') xs ys := by
  induction xs generalizing s ys with
  | nil =>
    rw [List.mapM_nil] at ran
    cases ran
    exact .nil
  | cons x xs ih =>
    rw [List.mapM_cons] at ran
    simp only [bind, EStateM.bind] at ran
    split at ran
    · next y t first =>
      split at ran
      · next ys t' rest =>
        cases ran
        exact .cons ⟨s, t, first⟩ (ih rest)
      · cases ran
    · cases ran

theorem Registry.mem_candidatesFor {β : Type} {registry : Registry β} {goal : Term}
    {inst : Instance β} : inst ∈ registry.candidatesFor goal ↔
      inst ∈ registry ∧ ∃ head, goal.head? = some head ∧ inst.rule.returns.head? = some head := by
  rw [candidatesFor]
  cases goal.head? with
  | none => simp
  | some head => simp [mem_sortedBy, candidates, offers]

namespace Resolution

variable {β : Type}

private theorem perm_of_mem_selections {α : Type} {sel : α × List α} {xs : List α}
    (member : sel ∈ selections xs) : (sel.1 :: sel.2).Perm xs := by
  induction xs generalizing sel with
  | nil => cases member
  | cons y ys ih =>
    rw [selections, List.mem_cons, List.mem_map] at member
    rcases member with rfl | ⟨later, inside, rfl⟩
    · exact .refl _
    · exact (List.Perm.swap y later.1 later.2).trans ((ih inside).cons y)

private theorem foldl_min_le (states : List (SearchState β)) (n : Nat) :
    states.foldl (fun m t => min m t.score) n ≤ n ∧
      ∀ t ∈ states, states.foldl (fun m t => min m t.score) n ≤ t.score := by
  induction states generalizing n with
  | nil => exact ⟨Nat.le_refl n, nofun⟩
  | cons s states ih =>
    obtain ⟨start, others⟩ := ih (min n s.score)
    rw [List.foldl_cons]
    refine ⟨by omega, fun t member => ?_⟩
    rcases List.mem_cons.mp member with rfl | later
    · omega
    · exact others t later

private theorem exists_foldl_min (states : List (SearchState β)) (s : SearchState β) :
    ∃ t ∈ s :: states, t.score = states.foldl (fun m t => min m t.score) s.score := by
  induction states generalizing s with
  | nil => exact ⟨s, List.mem_cons_self .., rfl⟩
  | cons u states ih =>
    rw [List.foldl_cons]
    by_cases le : s.score ≤ u.score
    · obtain ⟨t, member, score⟩ := ih s
      rw [Nat.min_eq_left le]
      refine ⟨t, ?_, score⟩
      rcases List.mem_cons.mp member with rfl | later
      · exact List.mem_cons_self ..
      · exact List.mem_cons_of_mem _ (List.mem_cons_of_mem _ later)
    · obtain ⟨t, member, score⟩ := ih u
      rw [Nat.min_eq_right (by omega)]
      exact ⟨t, List.mem_cons_of_mem _ member, score⟩

theorem takeLeast_split {waiting others : List (SearchState β)} {state : SearchState β}
    (taken : takeLeast waiting = some (state, others)) :
    ∃ before after, waiting = before ++ state :: after ∧ others = before ++ after ∧
      (∀ t ∈ before, t.score ≠ state.score) ∧ ∀ t ∈ waiting, state.score ≤ t.score := by
  cases waiting with
  | nil => cases taken
  | cons s rest =>
    rw [takeLeast, List.span_eq_takeWhile_dropWhile] at taken
    generalize least : rest.foldl (fun m t => min m t.score) s.score = m at taken
    obtain ⟨start, below⟩ := foldl_min_le rest s.score
    rw [least] at start below
    split at taken
    · next before t after split =>
      cases taken
      obtain ⟨front, back⟩ := Prod.mk.inj split
      have whole := List.takeWhile_append_dropWhile (p := fun t => t.score != m) (l := s :: rest)
      rw [front, back] at whole
      have score : state.score = m := by
        have stops := List.head?_dropWhile_not (fun t => t.score != m) (s :: rest)
        rw [back] at stops
        simpa using stops
      refine ⟨before, after, whole.symm, rfl, fun u member => ?_, fun u member => ?_⟩
      · rw [← front] at member
        rw [score]
        simpa using List.mem_takeWhile_imp member
      · rw [score]
        rcases List.mem_cons.mp member with rfl | later
        · exact start
        · exact below u later
    · cases taken

/-- The state that is taken is one of those waiting, and none has a smaller score. -/
theorem takeLeast_spec {waiting others : List (SearchState β)} {state : SearchState β}
    (taken : takeLeast waiting = some (state, others)) :
    waiting.Perm (state :: others) ∧ ∀ t ∈ waiting, state.score ≤ t.score := by
  obtain ⟨before, after, rfl, rfl, -, least⟩ := takeLeast_split taken
  exact ⟨List.perm_middle, least⟩

private theorem takeLeast_eq_none {waiting : List (SearchState β)}
    (none : takeLeast waiting = none) : waiting = [] := by
  cases waiting with
  | nil => rfl
  | cons s rest =>
    rw [takeLeast, List.span_eq_takeWhile_dropWhile] at none
    split at none
    · cases none
    · next before split =>
      obtain ⟨t, member, score⟩ := exists_foldl_min rest s
      have all := List.dropWhile_eq_nil_iff.mp (Prod.mk.inj split).2 t member
      simp [score] at all

theorem mem_goals_advance {state : SearchState β} {goal g : Goal} {rest : List Goal}
    {inst : Instance β} {dependencies : List Term} {typer : Typer} :
    g ∈ (advance state goal rest inst dependencies typer).goals ↔
      (∃ other ∈ rest, { other with current := typer.read other.current } = g) ∨
        ∃ d ∈ dependencies, ⟨typer.read d, typer.read d, goal.path ++ [goal.current]⟩ = g := by
  simp [advance]

theorem attempt_opened {state next : SearchState β} {goal : Goal} {rest : List Goal}
    {inst : Instance β} {report report' : Report}
    (ran : attempt state goal rest inst report = .ok (.opened next) report') :
    ∃ s, Typing.unify goal.current
          (inst.rule.returns.subst (state.typer.freshFor .unification inst.rule.typeParams).1)
          (.start (state.typer.freshFor .unification inst.rule.typeParams).2 report) = .ok () s ∧
      next = advance state goal rest inst (inst.rule.dependencies.map
        (Term.subst (state.typer.freshFor .unification inst.rule.typeParams).1)) s.typer := by
  unfold attempt at ran
  dsimp only at ran
  split at ran
  · cases ran
  · cases ran
  · next s unified =>
    split at ran
    · cases ran
    · cases ran
      exact ⟨s, unified, rfl⟩

theorem attempt_eq_opened {state : SearchState β} {goal : Goal} {rest : List Goal}
    {inst : Instance β} {report : Report} {s : Session} {next : SearchState β}
    (unified : Typing.unify goal.current
      (inst.rule.returns.subst (state.typer.freshFor .unification inst.rule.typeParams).1)
      (.start (state.typer.freshFor .unification inst.rule.typeParams).2 report) = .ok () s)
    (advanced : advance state goal rest inst (inst.rule.dependencies.map
      (Term.subst (state.typer.freshFor .unification inst.rule.typeParams).1)) s.typer = next)
    (acyclic : findCycle s.typer next.goals = none) :
    ∃ report', attempt state goal rest inst report = .ok (.opened next) report' := by
  unfold attempt
  dsimp only
  rw [unified]
  dsimp only
  rw [advanced, acyclic]
  exact ⟨_, rfl⟩

private theorem opened_foldl_append (found : List (Findings β)) (first : Findings β) :
    (found.foldl Findings.append first).opened = first.opened ++ found.flatMap Findings.opened := by
  induction found generalizing first with
  | nil => simp
  | cons f found ih => rw [List.foldl_cons, ih, List.flatMap_cons, ← List.append_assoc]; rfl

theorem mem_opened_ofAttempts {attempts : List (Attempt β)} {next : SearchState β} :
    next ∈ (Findings.ofAttempts attempts).opened ↔ Attempt.opened next ∈ attempts := by
  rw [Findings.ofAttempts, List.mem_filterMap]
  constructor
  · rintro ⟨attempt, member, equal⟩
    cases attempt with
    | refused => cases equal
    | pruned cycle => cases equal
    | opened state =>
      cases equal
      exact member
  · exact fun member => ⟨_, member, rfl⟩

theorem forall₂_exists_right {α γ : Type} {R : α → γ → Prop} {xs : List α} {ys : List γ}
    (related : List.Forall₂ R xs ys) {x : α} (member : x ∈ xs) : ∃ y ∈ ys, R x y := by
  induction related with
  | nil => cases member
  | @cons a b _ _ here _ ih =>
    rcases List.mem_cons.mp member with rfl | later
    · exact ⟨b, List.mem_cons_self .., here⟩
    · obtain ⟨y, inside, holds⟩ := ih later
      exact ⟨y, List.mem_cons_of_mem _ inside, holds⟩

def ordered (state : SearchState β) : List Goal :=
  sortedBy (fun goal => goal.current.arguments.length) state.goals

/-- An expansion has tried every instance for every goal, and the states it opened are those that the
attempts opened, those for the first goal first. -/
structure Expanded (registry : Registry β) (state : SearchState β) (found : Findings β) : Prop where
  applied : ∀ goal ∈ state.goals, goal.current.head?.isSome = true
  tried : ∀ sel ∈ selections (ordered state), ∀ inst ∈ registry.candidatesFor sel.1.current,
    ∃ attempted r r', attempt state sel.1 sel.2 inst r = .ok attempted r' ∧
      ∀ next, attempted = .opened next → next ∈ found.opened
  opened : ∀ next ∈ found.opened, ∃ sel ∈ selections (ordered state),
    ∃ inst ∈ registry.candidatesFor sel.1.current, ∃ r r',
      attempt state sel.1 sel.2 inst r = .ok (.opened next) r'
  inOrder : ∀ goal rest, ordered state = goal :: rest → ∃ attempts later,
    List.Forall₂ (fun inst attempted => ∃ r r', attempt state goal rest inst r = .ok attempted r')
      (registry.candidatesFor goal.current) attempts ∧
    found.opened = (Findings.ofAttempts attempts).opened ++ later

theorem expand_apply (registry : Registry β) (state : SearchState β) (report : Report) :
    expand registry state report =
      match state.goals.find? fun goal => goal.current.head?.isNone with
      | some goal => .error (.notApplied goal.current) report
      | none =>
        match (selections (ordered state)).mapM
            (fun sel => expandGoal registry state sel.1 sel.2) report with
        | .ok found report' => .ok (found.foldl .append .none) report'
        | .error failure report' => .error failure report' := by
  unfold expand
  cases state.goals.find? fun goal => goal.current.head?.isNone with
  | some goal => rfl
  | none =>
    show EStateM.bind ((selections (ordered state)).mapM
      fun sel => expandGoal registry state sel.1 sel.2)
        (fun found => pure (found.foldl Findings.append Findings.none)) report = _
    rw [EStateM.bind]
    cases (selections (ordered state)).mapM
      (fun sel => expandGoal registry state sel.1 sel.2) report <;> rfl

private theorem expandGoal_ok {registry : Registry β} {state : SearchState β} {goal : Goal}
    {rest : List Goal} {found : Findings β} {report report' : Report}
    (ran : expandGoal registry state goal rest report = .ok found report') :
    ∃ attempts, found = .ofAttempts attempts ∧
      List.Forall₂ (fun inst attempted => ∃ r r', attempt state goal rest inst r = .ok attempted r')
        (registry.candidatesFor goal.current) attempts := by
  simp only [expandGoal, bind, EStateM.bind] at ran
  split at ran
  · next attempts t tried =>
    cases ran
    exact ⟨attempts, rfl, forall₂_of_mapM tried⟩
  · cases ran

theorem perm_of_mem_selections_ordered {state : SearchState β} {sel : Goal × List Goal}
    (member : sel ∈ selections (ordered state)) : (sel.1 :: sel.2).Perm state.goals :=
  (perm_of_mem_selections member).trans (perm_sortedBy _ _)

theorem exists_selection {state : SearchState β} (goals : state.goals ≠ []) :
    ∃ sel, sel ∈ selections (ordered state) := by
  cases sorted : ordered state with
  | nil =>
    have perm := perm_sortedBy (fun goal : Goal => goal.current.arguments.length) state.goals
    rw [show sortedBy _ state.goals = [] from sorted] at perm
    exact absurd perm.symm.eq_nil goals
  | cons goal rest => exact ⟨_, List.mem_cons_self ..⟩

theorem expanded_of_expand {registry : Registry β} {state : SearchState β} {found : Findings β}
    {report report' : Report} (ran : expand registry state report = .ok found report') :
    Expanded registry state found := by
  rw [expand_apply] at ran
  split at ran
  · cases ran
  · next missing =>
    split at ran
    · next findings t each =>
      cases ran
      have related := forall₂_of_mapM each
      have mem_opened (next : SearchState β) :
          next ∈ (findings.foldl Findings.append .none).opened ↔ ∃ f ∈ findings, next ∈ f.opened := by
        rw [opened_foldl_append, Findings.none, List.nil_append, List.mem_flatMap]
      refine ⟨fun goal member => ?_, fun sel member inst candidate => ?_, fun next opened => ?_,
        fun goal rest first => ?_⟩
      · have head := List.find?_eq_none.mp missing goal member
        simpa [← Option.isSome_iff_ne_none, Option.isNone_iff_eq_none] using head
      · obtain ⟨f, inside, r, r', tried⟩ := forall₂_exists_right related member
        obtain ⟨attempts, rfl, attempted⟩ := expandGoal_ok tried
        obtain ⟨a, among, t, t', result⟩ := forall₂_exists_right attempted candidate
        refine ⟨a, t, t', result, fun next equal => (mem_opened next).mpr ⟨_, inside, ?_⟩⟩
        rw [equal] at among
        exact mem_opened_ofAttempts.mpr among
      · obtain ⟨f, inside, opens⟩ := (mem_opened next).mp opened
        obtain ⟨sel, member, r, r', tried⟩ := forall₂_exists_right related.flip inside
        obtain ⟨attempts, rfl, attempted⟩ := expandGoal_ok tried
        obtain ⟨inst, candidate, t, t', result⟩ :=
          forall₂_exists_right attempted.flip (mem_opened_ofAttempts.mp opens)
        exact ⟨sel, member, inst, candidate, t, t', result⟩
      · rw [first, selections] at related
        cases related with
        | @cons _ f _ more here _ =>
          obtain ⟨r, r', tried⟩ := here
          obtain ⟨attempts, rfl, attempted⟩ := expandGoal_ok tried
          refine ⟨attempts, more.flatMap Findings.opened, attempted, ?_⟩
          rw [opened_foldl_append, Findings.none, List.nil_append, List.flatMap_cons]
    · cases ran

/-- A property of the waiting states that expansions keep holds when the search ends. Unless a state
has won, none is waiting then or the limit was reached. -/
theorem search_induction {registry : Registry β} {Q : List (SearchState β) → Prop}
    (step : ∀ {waiting others state found}, takeLeast waiting = some (state, others) →
      state.goals ≠ [] → Expanded registry state found → Q waiting → Q (others ++ found.opened))
    {n expansions : Nat} {waiting : List (SearchState β)} {cycle : Option (List Term)}
    {deadEnd : Bool} {report report' : Report} {ending : Ending β}
    (ran : search registry n expansions waiting cycle deadEnd report = .ok ending report')
    (start : Q waiting) :
    (∃ k state others last, ending = .won k state ∧ state.goals = [] ∧ Q last ∧
      takeLeast last = some (state, others)) ∨
    ∃ k last c d, ending = .lost k last c d ∧ Q last ∧ (last = [] ∨ k = expansions + n) := by
  induction n generalizing expansions waiting cycle deadEnd report with
  | zero =>
    cases ran
    exact .inr ⟨_, _, _, _, rfl, start, .inr rfl⟩
  | succ n ih =>
    unfold search at ran
    cases taken : takeLeast waiting with
    | none =>
      rw [taken] at ran
      cases ran
      exact .inr ⟨_, _, _, _, rfl, start, .inl (takeLeast_eq_none taken)⟩
    | some pair =>
      obtain ⟨state, others⟩ := pair
      rw [taken] at ran
      dsimp only at ran
      by_cases done : state.goals.isEmpty = true
      · rw [if_pos done] at ran
        cases ran
        exact .inl ⟨_, _, _, _, rfl, List.isEmpty_iff.mp done, start, taken⟩
      · rw [if_neg done] at ran
        simp only [bind, EStateM.bind] at ran
        split at ran
        · next found t expanded =>
          have goals : state.goals ≠ [] := fun empty => done (List.isEmpty_iff.mpr empty)
          have limit : expansions + (n + 1) = expansions + 1 + n := by omega
          rw [limit]
          exact ih ran (step taken goals (expanded_of_expand expanded) start)
        · cases ran

theorem holds_of_won {registry : Registry β} {P : SearchState β → Prop}
    (opened : ∀ {state found}, P state → Expanded registry state found →
      ∀ next ∈ found.opened, P next)
    {n expansions k : Nat} {waiting : List (SearchState β)} {cycle : Option (List Term)}
    {deadEnd : Bool} {report report' : Report} {state : SearchState β}
    (ran : search registry n expansions waiting cycle deadEnd report = .ok (.won k state) report')
    (start : ∀ s ∈ waiting, P s) : state.goals = [] ∧ P state := by
  have kept := search_induction (Q := fun waiting => ∀ s ∈ waiting, P s)
    (fun {_ _ state _} taken _ expanded holds next member => by
      obtain ⟨perm, -⟩ := takeLeast_spec taken
      rcases List.mem_append.mp member with old | new
      · exact holds next (perm.symm.subset (List.mem_cons_of_mem _ old))
      · exact opened (holds state (perm.symm.subset (List.mem_cons_self ..))) expanded next new)
    ran start
  rcases kept with ⟨_, _, others, last, equal, finished, holds, taken⟩ | ⟨_, _, _, _, equal, -⟩
  · cases equal
    obtain ⟨perm, -⟩ := takeLeast_spec taken
    exact ⟨finished, holds state (perm.symm.subset (List.mem_cons_self ..))⟩
  · cases equal

def Ending.depth? : Ending β → Option Nat
  | .won _ state => some state.depth
  | .lost .. => none

theorem won_of_conclude {goals : List Term} {ending : Ending β} {report report' : Report}
    {branch : Typer} {values : List β}
    (ran : conclude goals ending report = .ok (branch, values) report') :
    ∃ k state, ending = .won k state ∧ branch = state.typer ∧
      goals.mapM (state.chosen.evidence state.chosen.length) = some values := by
  cases ending with
  | won k state =>
    simp only [conclude, bind, EStateM.bind] at ran
    cases built : goals.mapM (state.chosen.evidence state.chosen.length) with
    | none =>
      rw [built] at ran
      cases ran
    | some found =>
      rw [built] at ran
      cases ran
      exact ⟨k, state, rfl, rfl, built⟩
  | lost k waiting cycle deadEnd =>
    cases waiting with
    | nil => cases cycle <;> cases ran
    | cons first others => cases ran

end Resolution

theorem Registry.explore_apply {β : Type} (registry : Registry β) (limit : Nat) (typer : Typer)
    (goals : List Term) (report : Report) :
    registry.explore limit typer goals report =
      Resolution.search registry limit 0 [.start typer goals] none false
        (report.tell fun _ => ["resolve", Term.renderList goals]) :=
  rfl

theorem Registry.resolve_apply {β : Type} (registry : Registry β) (limit : Nat) (typer : Typer)
    {goals : List Term} (nonempty : goals ≠ []) (report : Report) :
    registry.resolve limit typer goals report =
      (registry.explore limit typer goals >>= Resolution.conclude goals) report := by
  unfold resolve
  rw [if_neg (by simpa using nonempty)]

theorem Registry.explored_of_resolve {β : Type} {registry : Registry β} {limit : Nat}
    {typer : Typer} {goals : List Term} (nonempty : goals ≠ []) {found : Typer × List β}
    {report report' : Report}
    (returned : registry.resolve limit typer goals report = .ok found report') :
    ∃ k state mid, registry.explore limit typer goals report = .ok (.won k state) mid ∧
      found.1 = state.typer := by
  rw [resolve_apply registry limit typer nonempty report] at returned
  obtain ⟨ending, mid, ran, concluded⟩ := bind_eq_ok returned
  obtain ⟨k, state, rfl, same, -⟩ := Resolution.won_of_conclude concluded
  exact ⟨k, state, mid, ran, same⟩

end TypedCalls
