import TypedCalls.Proofs.Instance.Search

/-!
Which of several cheapest solutions a search finds.

States with the least score are taken in the order of their arrival, so those of one depth are all
taken before those they have opened. A state that is taken gives way to the states it opens, among the
states that are one deeper. Read with the deeper states first, the states thus keep an order in which
each is replaced by those it opens, in place (`Levels.step`). If there the first state with a prospect
is a good one, and stays so when it is replaced, a good state wins (`good_of_won`).
-/

set_option autoImplicit false

namespace TypedCalls.Resolution

variable {β : Type} {registry : Registry β}

/-- Of the elements of a list, the first with a prospect is good. -/
inductive Leads {α : Type} (good hopeful : α → Prop) : List α → Prop
  | here {x : α} {xs : List α} : good x → Leads good hopeful (x :: xs)
  | later {x : α} {xs : List α} : ¬hopeful x → Leads good hopeful xs → Leads good hopeful (x :: xs)

namespace Leads

variable {α : Type} {good hopeful : α → Prop} {xs ys zs : List α} {x : α}

private theorem append_right (leads : Leads good hopeful xs) (ys : List α) :
    Leads good hopeful (xs ++ ys) := by
  induction leads with
  | here isGood => exact .here isGood
  | later dull _ ih => exact .later dull ih

private theorem append_left (dull : ∀ x ∈ xs, ¬hopeful x) (leads : Leads good hopeful ys) :
    Leads good hopeful (xs ++ ys) := by
  induction xs with
  | nil => exact leads
  | cons x xs ih =>
    obtain ⟨here, there⟩ := List.forall_mem_cons.mp dull
    exact .later here (ih there)

private theorem replace (leads : Leads good hopeful (xs ++ x :: zs))
    (fruitful : good x → Leads good hopeful ys)
    (fruitless : ¬hopeful x → ∀ y ∈ ys, ¬hopeful y) : Leads good hopeful (xs ++ ys ++ zs) := by
  induction xs with
  | nil =>
    cases leads with
    | here isGood => exact (fruitful isGood).append_right zs
    | later dull rest => exact rest.append_left (fruitless dull)
  | cons w xs ih =>
    cases leads with
    | here isGood => exact .here isGood
    | later dull rest => exact .later dull (ih rest)

end Leads

theorem Expanded.deeper {state : SearchState β} {found : Findings β}
    (expanded : Expanded registry state found) {next : SearchState β} (opened : next ∈ found.opened) :
    next.depth = state.depth + 1 ∧ state.score ≤ next.score := by
  obtain ⟨sel, selected, inst, -, r, r', ran⟩ := expanded.opened next opened
  obtain ⟨s, -, rfl⟩ := attempt_opened ran
  have count := (perm_of_mem_selections_ordered selected).length_eq
  refine ⟨rfl, ?_⟩
  simp only [SearchState.score, advance, List.length_append, List.length_map]
  rw [List.length_cons] at count
  omega

private theorem exists_of_forall₂_append {α γ : Type} {R : α → γ → Prop} {xs zs : List α} {x : α}
    {ys : List γ} (related : List.Forall₂ R (xs ++ x :: zs) ys) :
    ∃ before y after, ys = before ++ y :: after ∧ List.Forall₂ R xs before ∧ R x y := by
  induction xs generalizing ys with
  | nil =>
    cases related with
    | cons here _ => exact ⟨[], _, _, rfl, .nil, here⟩
  | cons w xs ih =>
    cases related with
    | @cons _ v _ _ here there =>
      obtain ⟨before, y, after, rfl, earlier, last⟩ := ih there
      exact ⟨v :: before, y, after, rfl, .cons here earlier, last⟩

theorem Expanded.leads {n : Nat} {good hopeful : SearchState β → Prop} {state : SearchState β}
    {found : Findings β} (expanded : Expanded registry state found) (least : n ≤ state.score)
    {goal : Goal} {rest : List Goal} (first : ordered state = goal :: rest)
    {before after : List (Instance β)} {inst : Instance β}
    (candidates : registry.candidatesFor goal.current = before ++ inst :: after)
    (dull : ∀ other ∈ before, ∀ next r r',
      attempt state goal rest other r = .ok (.opened next) r' → ¬hopeful next)
    (opens : ∀ attempted r r', attempt state goal rest inst r = .ok attempted r' →
      ∃ next, attempted = .opened next ∧ good next ∧ next.score ≤ n) :
    Leads good hopeful (found.opened.filter fun s => s.score = n) := by
  obtain ⟨attempts, later, related, opened⟩ := expanded.inOrder goal rest first
  rw [candidates] at related
  obtain ⟨earlier, _, others, rfl, tried, r, r', ran⟩ := exists_of_forall₂_append related
  obtain ⟨next, rfl, isGood, upper⟩ := opens _ r r' ran
  have order : found.opened = (Findings.ofAttempts earlier).opened ++
      next :: ((Findings.ofAttempts others).opened ++ later) := by
    rw [opened]
    simp [Findings.ofAttempts]
  have inside : next ∈ found.opened := by
    rw [order]
    exact List.mem_append_right _ (List.mem_cons_self ..)
  have lower := (expanded.deeper inside).2
  have score : next.score = n := by omega
  rw [order, List.filter_append, List.filter_cons_of_pos (by simpa using score)]
  refine .append_left (fun s member => ?_) (.here isGood)
  have attempted := mem_opened_ofAttempts.mp (List.mem_filter.mp member).1
  obtain ⟨other, inside, t, t', result⟩ := forall₂_exists_right tried.flip attempted
  exact dull other inside s t t' result

/-- The waiting states with the least score: those of one depth, and after them those one deeper. -/
structure Levels (n : Nat) (good hopeful : SearchState β → Prop) (waiting : List (SearchState β)) :
    Prop where
  least : ∀ s ∈ waiting, n ≤ s.score
  split : ∃ now next k, (waiting.filter fun s => s.score = n) = now ++ next ∧
    (∀ s ∈ now, s.depth = k) ∧ (∀ s ∈ next, s.depth = k + 1) ∧ Leads good hopeful (next ++ now)

namespace Levels

variable {n : Nat} {good hopeful : SearchState β → Prop} {waiting others : List (SearchState β)}
  {state : SearchState β}

private theorem taken (levels : Levels n good hopeful waiting)
    (taken : takeLeast waiting = some (state, others)) : state.score = n ∧
      ∃ now next, (others.filter fun s => s.score = n) = now ++ next ∧
        (∀ s ∈ now, s.depth = state.depth) ∧ (∀ s ∈ next, s.depth = state.depth + 1 ∧ s.score = n) ∧
        Leads good hopeful (next ++ state :: now) := by
  obtain ⟨before, after, rfl, rfl, unequal, least⟩ := takeLeast_split taken
  obtain ⟨first, now, next, k, order, depth, depths, deeper, leads⟩ :
      ∃ first now next k, ((before ++ state :: after).filter fun s => s.score = n) =
        first :: (now ++ next) ∧ first.depth = k ∧ (∀ s ∈ now, s.depth = k) ∧
        (∀ s ∈ next, s.depth = k + 1) ∧ Leads good hopeful (next ++ first :: now) := by
    obtain ⟨now, next, k, order, depths, deeper, leads⟩ := levels.split
    cases now with
    | cons first now =>
      obtain ⟨here, there⟩ := List.forall_mem_cons.mp depths
      exact ⟨first, now, next, k, order, here, there, deeper, leads⟩
    | nil =>
      rw [List.append_nil] at leads
      cases next with
      | nil => cases leads
      | cons first next =>
        obtain ⟨here, there⟩ := List.forall_mem_cons.mp deeper
        rw [List.nil_append] at order
        exact ⟨first, next, [], k + 1, by rw [order, List.append_nil], here, there, nofun, leads⟩
  have inside : first ∈ (before ++ state :: after).filter fun s => s.score = n := by
    rw [order]
    exact List.mem_cons_self ..
  obtain ⟨waits, score⟩ := List.mem_filter.mp inside
  have equal : state.score = n := by
    have upper := least first waits
    have lower := levels.least state (by simp)
    have exact := of_decide_eq_true score
    omega
  have none : (before.filter fun s => s.score = n) = [] :=
    List.filter_eq_nil_iff.mpr fun s member => by
      simpa [equal] using unequal s member
  rw [List.filter_append, none, List.nil_append, List.filter_cons_of_pos (by simpa using equal)]
    at order
  obtain ⟨rfl, rest⟩ := List.cons.inj order
  refine ⟨equal, now, next, ?_, fun s member => (depths s member).trans depth.symm,
    fun s member => ⟨?_, ?_⟩, leads⟩
  · rw [List.filter_append, none, List.nil_append, rest]
  · rw [deeper s member, depth]
  · have kept : s ∈ after.filter fun s => s.score = n := by
      rw [rest]
      exact List.mem_append_right _ member
    exact of_decide_eq_true (List.mem_filter.mp kept).2

private theorem step (levels : Levels n good hopeful waiting)
    (taken : takeLeast waiting = some (state, others)) {found : Findings β}
    (expanded : Expanded registry state found)
    (fruitful : good state → Leads good hopeful (found.opened.filter fun s => s.score = n))
    (fruitless : ¬hopeful state → ∀ next ∈ found.opened, next.score = n → ¬hopeful next) :
    Levels n good hopeful (others ++ found.opened) := by
  obtain ⟨perm, -⟩ := takeLeast_spec taken
  obtain ⟨score, now, next, order, depths, deeper, leads⟩ := levels.taken taken
  refine ⟨fun s member => ?_, now, next ++ found.opened.filter fun s => s.score = n, state.depth, ?_,
    depths, fun s member => ?_, ?_⟩
  · rcases List.mem_append.mp member with old | new
    · exact levels.least s (perm.symm.subset (List.mem_cons_of_mem _ old))
    · exact score ▸ (expanded.deeper new).2
  · rw [List.filter_append, order, List.append_assoc]
  · rcases List.mem_append.mp member with old | new
    · exact (deeper s old).1
    · exact (expanded.deeper (List.mem_filter.mp new).1).1
  · refine leads.replace fruitful fun dull s member => ?_
    obtain ⟨opened, equal⟩ := List.mem_filter.mp member
    exact fruitless dull s opened (of_decide_eq_true equal)

private theorem good_of_taken (levels : Levels n good hopeful waiting)
    (taken : takeLeast waiting = some (state, others)) (finished : state.goals = [])
    (prospect : hopeful state) : good state := by
  obtain ⟨score, now, next, -, -, deeper, leads⟩ := levels.taken taken
  -- nothing with the same score can be deeper than a state without goals
  have none : next = [] := by
    refine List.eq_nil_iff_forall_not_mem.mpr fun s member => ?_
    obtain ⟨depth, equal⟩ := deeper s member
    rw [SearchState.score, finished, List.length_nil] at score
    rw [SearchState.score] at equal
    omega
  rw [none, List.nil_append] at leads
  cases leads with
  | here isGood => exact isGood
  | later dull _ => exact absurd prospect dull

end Levels

/-- A good state wins, if good states open good ones before any others with a prospect, and states
without a prospect only others without one. -/
theorem good_of_won {n : Nat} {P good hopeful : SearchState β → Prop}
    (keeps : ∀ {state found}, P state → Expanded registry state found →
      ∀ next ∈ found.opened, P next)
    (fruitful : ∀ {state found}, P state → good state → state.goals ≠ [] →
      Expanded registry state found →
        Leads good hopeful (found.opened.filter fun s => s.score = n))
    (fruitless : ∀ {state found}, P state → ¬hopeful state → Expanded registry state found →
      ∀ next ∈ found.opened, ¬hopeful next)
    (finished : ∀ {state}, P state → state.score = n → state.goals = [] → hopeful state)
    {m expansions k : Nat} {start state : SearchState β} {cycle : Option (List Term)}
    {deadEnd : Bool} {report report' : Report}
    (ran : search registry m expansions [start] cycle deadEnd report = .ok (.won k state) report')
    (startsP : P start) (startsGood : good start) (score : start.score = n) : good state := by
  have begins : Levels n good hopeful [start] := by
    refine ⟨fun s member => ?_, [start], [], start.depth, ?_, ?_, nofun, .here startsGood⟩
    · rw [List.mem_singleton.mp member, score]
    · simp [score]
    · simp
  have kept := search_induction
    (Q := fun waiting => (∀ s ∈ waiting, P s) ∧ Levels n good hopeful waiting)
    (fun {_ _ state _} taken goals expanded holds => by
      obtain ⟨perm, -⟩ := takeLeast_spec taken
      have here := holds.1 state (perm.symm.subset (List.mem_cons_self ..))
      refine ⟨fun next member => ?_, holds.2.step taken expanded
        (fun isGood => fruitful here isGood goals expanded)
        fun dull next opened _ => fruitless here dull expanded next opened⟩
      rcases List.mem_append.mp member with old | new
      · exact holds.1 next (perm.symm.subset (List.mem_cons_of_mem _ old))
      · exact keeps here expanded next new)
    ran ⟨fun s member => List.mem_singleton.mp member ▸ startsP, begins⟩
  rcases kept with ⟨_, _, others, last, equal, empty, ⟨all, levels⟩, taken⟩ | ⟨_, _, _, _, equal, -⟩
  · cases equal
    obtain ⟨perm, -⟩ := takeLeast_spec taken
    have here := all state (perm.symm.subset (List.mem_cons_self ..))
    exact levels.good_of_taken taken empty (finished here (levels.taken taken).1 empty)
  · cases equal

end TypedCalls.Resolution
