import Mathlib.Algebra.GroupWithZero.Nat
import Mathlib.Tactic.Common
import TypedCalls.Proofs.Instance.Accounts
import TypedCalls.Proofs.Instance.Precedence
import TypedCalls.Proofs.Standard.Conversions
import TypedCalls.Proofs.Standard.Upcasts
import TypedCalls.Proofs.Term.Normal

/-!
The type at which the standard instances bring several types together.

Types that widen to one type form a chain, so one of them, the widest, is where all of them meet. To
convert all of them to it costs no more than to convert them to any other type. If another type costs
as much, every one of the types is a single conversion away from the widest (`Widens.direct_of_tie`),
and the order in which conversions are tried decides. It favours the widest, unless that is the type of
narrow integers and whole numbers in expressions are among the types: their conversion to integers of
any size comes first.
-/

set_option autoImplicit false

namespace TypedCalls

open Problem
open Classes (Satisfies)

/-- A type without quantifiers, type parameters and variables, with its nullable markers in place. -/
structure Term.Ground (t : Term) : Prop where
  free : t.QuantifierFree
  normal : t.Normal
  closed : t.freeVars = []

namespace Term.Ground

variable {t : Term}

theorem fill_eq (ground : t.Ground) (θ : TypeVar → Term) : t.fill θ = t :=
  ground.normal.replace_eq fun v free => by
    rw [ground.closed] at free
    cases free

private theorem child {c : Term} (ground : t.Ground) (member : c ∈ t.children) : c.Ground := by
  have notUse : ∀ w, t ≠ .use w := by
    rintro w rfl
    cases member
  refine ⟨BuiltFrom.child ground.free member, ?_, List.eq_nil_iff_forall_not_mem.mpr fun v inside => ?_⟩
  · cases t with
    | con head args => exact (normal_con.mp ground.normal).2 c member
    | use v => cases member
    | scheme quantifier vars body => cases member
    | func typeParams params result => exact normal_func.mp ground.normal c member
  · have outer := (BuiltFrom.mem_freeVars_iff ground.free notUse).mpr ⟨c, member, inside⟩
    rw [ground.closed] at outer
    cases outer

theorem intact (ground : t.Ground) (θ : TypeVar → Term) : t.Intact θ := by
  induction t using Term.induct with
  | con head args ih =>
    have same : args.map (fill θ) = args := by
      conv_rhs => rw [← List.map_id args]
      exact List.map_congr_left fun a member => (ground.child member).fill_eq θ
    refine intact_con.mpr ⟨?_, fun a member => ih a member (ground.child member)⟩
    rw [same, ground.fill_eq θ]
  | use v => trivial
  | scheme quantifier vars body =>
    exact absurd ground.free (by simp [QuantifierFree, BuiltFrom])
  | func typeParams params result ihParams ihResult =>
    obtain ⟨rfl, -⟩ := builtFrom_func.mp ground.free
    refine intact_func.mpr ⟨rfl, fun p member => ?_⟩
    have part : p.Ground := ground.child member
    rcases List.mem_append.mp member with inParams | isResult
    · exact ihParams p inParams part
    · obtain rfl := List.mem_singleton.mp isResult
      exact ihResult part

end Term.Ground

namespace Standard

theorem over_quantifierFree : (instances false).Over Term.QuantifierFree := by
  have terms : ∀ inst ∈ instances false, ∀ t ∈ inst.rule.terms, t.QuantifierFree := by
    simp [instances, conversion, lifted, composition, groupOf, groupMonoid, Rule.terms, upcast, group,
      monoid, listOf, A, B, C, Term.nullable, nothing, litInt, bigInt, int, rational, double,
      litString, string, Term.QuantifierFree, Term.BuiltFrom, Term.BuiltFromAll]
  exact fun inst registered => ⟨terms inst registered, (over_instances false inst registered).2⟩

private theorem checked_instances :
    ∀ inst ∈ instances false, inst.rule.checked = .ok inst.rule := by
  simp [instances, conversion, lifted, composition, groupOf, groupMonoid, Rule.checked, upcast, group,
    monoid, Term.head?]

def element : TypeVar := (Typer.fresh.freshVar .unification).1

def elementTyper : Typer := (Typer.fresh.freshVar .unification).2

def commonGoals (types : List Term) : List Term := types.map fun t => upcast t (.use element)

variable {types : List Term} {a b c m : Term} {n : Nat} {θ : TypeVar → Term}

private theorem element_older {k : Nat} (some : 1 ≤ k) :
    element.Older k := TypeVar.older_numbered _ some

private theorem widens_of_derivableAll
    (derivable : DerivableAll (instances false) θ n (types.map fun t => upcast t c)) :
    (∀ t ∈ types, ∃ k, Widens k t c) ∧ (types.map fun t => wideningCost (upcast t c)).sum ≤ n := by
  induction types generalizing n with
  | nil => exact ⟨nofun, Nat.zero_le n⟩
  | cons t types ih =>
    cases derivable with
    | @cons i j _ _ first others =>
      obtain ⟨k, le, widens⟩ := widens_of_derivable first
      obtain ⟨each, sum⟩ := ih others
      refine ⟨List.forall_mem_cons.mpr ⟨⟨k, widens⟩, each⟩, ?_⟩
      rw [List.map_cons, List.sum_cons, wideningCost_upcast widens]
      omega

private theorem exists_widest (nonempty : types ≠ []) (widen : ∀ t ∈ types, ∃ k, Widens k t c) :
    ∃ m ∈ types, ∀ t ∈ types, ∃ k, Widens k t m := by
  induction types with
  | nil => exact absurd rfl nonempty
  | cons t types ih =>
    obtain ⟨⟨i, first⟩, others⟩ := List.forall_mem_cons.mp widen
    by_cases single : types = []
    · subst single
      exact ⟨t, List.mem_singleton_self t, fun u member => List.mem_singleton.mp member ▸ ⟨1, .same _⟩⟩
    · obtain ⟨m, member, widest⟩ := ih single others
      obtain ⟨j, second⟩ := others m member
      rcases first.comparable second with up | ⟨k, down⟩
      · exact ⟨m, List.mem_cons_of_mem _ member, List.forall_mem_cons.mpr ⟨up, widest⟩⟩
      · refine ⟨t, List.mem_cons_self .., List.forall_mem_cons.mpr ⟨⟨1, .same t⟩, fun u inside => ?_⟩⟩
        obtain ⟨l, below⟩ := widest u inside
        obtain ⟨l', -, through⟩ := below.trans down
        exact ⟨l', through⟩

private theorem eq_of_sum_le {α : Type} {f g : α → Nat} {xs : List α} (le : ∀ x ∈ xs, f x ≤ g x)
    (sum : (xs.map g).sum ≤ (xs.map f).sum) : ∀ x ∈ xs, f x = g x := by
  induction xs with
  | nil => exact nofun
  | cons x xs ih =>
    obtain ⟨here, there⟩ := List.forall_mem_cons.mp le
    have others : (xs.map f).sum ≤ (xs.map g).sum := List.sum_le_sum there
    rw [List.map_cons, List.sum_cons, List.map_cons, List.sum_cons] at sum
    exact List.forall_mem_cons.mpr ⟨by omega, ih there (by omega)⟩

private theorem quantifierFree_commonGoals (ground : ∀ t ∈ types, t.Ground) :
    ∀ g ∈ commonGoals types, g.QuantifierFree := by
  intro g member
  obtain ⟨t, inside, rfl⟩ := List.mem_map.mp member
  have intact : (upcast t (.use element)).Intact .use :=
    intact_upcast ((ground t inside).intact .use) (show Term.Intact _ (.use _) from trivial)
  exact intact.quantifierFree

private theorem fill_commonGoals (ground : ∀ t ∈ types, t.Ground) (θ : TypeVar → Term) :
    (commonGoals types).map (Term.fill θ) = types.map fun t => upcast t (θ element) := by
  rw [commonGoals, List.map_map]
  refine List.map_congr_left fun t member => ?_
  rw [Function.comp_apply, fill_upcast, (ground t member).fill_eq, Term.fill_use]

private theorem onTrack_common (ground : ∀ t ∈ types, t.Ground) (target : m.Ground)
    (widen : ∀ t ∈ types, ∃ k, Widens k t m) :
    (SearchState.start elementTyper (commonGoals types) : SearchState Built).OnTrack
      (wideningPlan fun _ => m) (types.map fun t => wideningCost (upcast t m)).sum fun _ => m := by
  have filled {t : Term} (member : t ∈ types) :
      (upcast t (.use element)).fill (fun _ => m) = upcast t m := by
    rw [fill_upcast, (ground t member).fill_eq, Term.fill_use]
  refine ⟨rfl, sane_empty _, Classes.satisfies_empty _, fun _ _ _ _ => rfl, fun g member => ?_, ?_⟩
  · obtain ⟨goal, asked, rfl⟩ := List.mem_map.mp member
    obtain ⟨t, inside, rfl⟩ := List.mem_map.mp asked
    obtain ⟨k, widens⟩ := widen t inside
    refine ⟨⟨intact_upcast ((ground t inside).intact _) trivial, fun v free => ?_⟩, nofun, ?_, nofun⟩
    · obtain ⟨part, here, below⟩ := Term.mem_freeVars_con.mp free
      rcases List.mem_pair.mp here with rfl | rfl
      · rw [(ground part inside).closed] at below
        cases below
      · rw [List.mem_singleton.mp below]
        exact element_older (Nat.le_refl 1)
    · exact ⟨k, t, m, filled inside, (ground t inside).free, target.free, widens⟩
  · rw [Plan.total, SearchState.start, commonGoals, List.map_map, List.map_map, Nat.zero_add]
    exact Nat.le_of_eq (congrArg List.sum (List.map_congr_left fun t inside =>
      congrArg wideningCost (filled inside)))

/-! Where every type is a single conversion away from the widest. -/

/-- A state of the search for a common type. As long as it has the least score, it has made single
conversions only, and its goals are among those it set out with. -/
structure Approaching (types : List Term) (state : SearchState Built) : Prop where
  accounts : state.Accounts (instances false) (commonGoals types)
  least : types.length ≤ state.score
  keys : state.score = types.length → ∀ g ∈ state.goals, ∃ t ∈ types, g.key = upcast t (.use element)

def Hopeful (types : List Term) (state : SearchState Built) : Prop :=
  ∃ θ, Satisfies θ state.typer.classes ∧ ∀ t ∈ types, Widens 1 t (θ element)

def Heading (types : List Term) (m : Term) (state : SearchState Built) : Prop :=
  ∃ θ, state.OnTrack (wideningPlan fun _ => m) types.length θ ∧ θ element = m ∧
    1 ≤ state.typer.counter

private theorem approaching_start (ground : ∀ t ∈ types, t.Ground) :
    Approaching types (SearchState.start elementTyper (commonGoals types)) where
  accounts := accounts_start (.named 1 .refl) (quantifierFree_commonGoals ground)
  least := by simp [SearchState.score, SearchState.start, commonGoals]
  keys _ g member := by
    obtain ⟨goal, asked, rfl⟩ := List.mem_map.mp member
    obtain ⟨t, inside, rfl⟩ := List.mem_map.mp asked
    exact ⟨t, inside, rfl⟩

namespace Approaching

variable {state next : SearchState Built} {found : Resolution.Findings Built}

private theorem opened (approaching : Approaching types state)
    (expanded : Resolution.Expanded (instances false) state found) :
    ∀ next ∈ found.opened, Approaching types next := by
  intro next member
  obtain ⟨-, no_less⟩ := expanded.deeper member
  have least := approaching.least
  refine ⟨approaching.accounts.opened over_quantifierFree expanded next member, by omega,
    fun score g inside => ?_⟩
  have keys := approaching.keys (by omega)
  obtain ⟨sel, selected, inst, -, r, r', ran⟩ := expanded.opened next member
  obtain ⟨s, -, rfl⟩ := Resolution.attempt_opened ran
  have perm := Resolution.perm_of_mem_selections_ordered selected
  rcases Resolution.mem_goals_advance.mp inside with ⟨other, rest, rfl⟩ | ⟨d, brought, rfl⟩
  · exact keys other (perm.subset (List.mem_cons_of_mem _ rest))
  · -- an instance with dependencies would have raised the score
    have count := perm.length_eq
    have some := List.length_pos_of_mem brought
    simp only [SearchState.score, Resolution.advance, List.length_append, List.length_map] at score
    rw [SearchState.score] at no_less least
    rw [List.length_cons] at count
    rw [List.length_map] at some
    omega

private theorem not_hopeful_opened (approaching : Approaching types state)
    (dull : ¬Hopeful types state) (expanded : Resolution.Expanded (instances false) state found) :
    ∀ next ∈ found.opened, ¬Hopeful types next := by
  rintro next member ⟨θ, satisfies, direct⟩
  obtain ⟨sel, selected, inst, candidate, r, r', ran⟩ := expanded.opened next member
  have perm := Resolution.perm_of_mem_selections_ordered selected
  obtain ⟨before, -⟩ := approaching.accounts.sound.solutions_of_attempt over_quantifierFree
    (perm.subset (List.mem_cons_self ..)) (Registry.mem_candidatesFor.mp candidate).1 ran satisfies
  exact dull ⟨θ, before, direct⟩

private theorem hopeful_of_finished (ground : ∀ t ∈ types, t.Ground)
    (approaching : Approaching types state) (score : state.score = types.length)
    (finished : state.goals = []) : Hopeful types state := by
  have sane := approaching.accounts.sound.sane
  let θ := state.typer.classes.solution
  have satisfies : Satisfies θ state.typer.classes :=
    Classes.satisfies_solution sane.tidy sane.acyclic fun _ _ bound => (sane.bound bound).1
  have none : DerivableAll (instances false) θ 0 (state.goals.map fun g => g.current.fill θ) := by
    rw [finished]
    exact .nil
  have derivable := approaching.accounts.derives θ satisfies 0 none
  rw [fill_commonGoals ground, Nat.zero_add] at derivable
  obtain ⟨widen, sum⟩ := widens_of_derivableAll derivable
  rw [SearchState.score, finished, List.length_nil, Nat.add_zero] at score
  have single : ∀ t ∈ types, 1 = wideningCost (upcast t (θ element)) := by
    refine eq_of_sum_le (fun t member => ?_) ?_
    · obtain ⟨k, widens⟩ := widen t member
      rw [wideningCost_upcast widens]
      exact widens.pos
    · rw [List.map_const', List.sum_replicate, ← score]
      simpa using sum
  refine ⟨θ, satisfies, fun t member => ?_⟩
  obtain ⟨k, widens⟩ := widen t member
  have one := single t member
  rw [wideningCost_upcast widens] at one
  exact one ▸ widens

private theorem leads (ground : ∀ t ∈ types, t.Ground) (member : m ∈ types)
    (direct : ∀ t ∈ types, Widens 1 t m) (clear : ¬(litInt ∈ types ∧ m = int))
    (approaching : Approaching types state) (heading : Heading types m state)
    (goals : state.goals ≠ []) (expanded : Resolution.Expanded (instances false) state found) :
    Resolution.Leads (Heading types m) (Hopeful types)
      (found.opened.filter fun s => s.score = types.length) := by
  obtain ⟨θ, onTrack, target, known⟩ := heading
  have sound := approaching.accounts.sound
  have score : state.score = types.length := Nat.le_antisymm onTrack.score_le approaching.least
  obtain ⟨sel, selected⟩ := Resolution.exists_selection goals
  cases sorted : Resolution.ordered state with
  | nil =>
    rw [sorted] at selected
    cases selected
  | cons goal rest =>
    have perm : (goal :: rest).Perm state.goals := sorted ▸ perm_sortedBy _ _
    have here : goal ∈ state.goals := perm.subset (List.mem_cons_self ..)
    obtain ⟨t, inside, key⟩ := approaching.keys score goal here
    have meant (η : TypeVar → Term) : goal.key.fill η = upcast t (η element) := by
      rw [key, fill_upcast, (ground t inside).fill_eq, Term.fill_use]
    have current : goal.current.fill θ = upcast t m := by
      rw [← (sound.goals goal here).2 θ onTrack.satisfies, meant, target]
    have head : goal.current.head? = some "Upcast" := by
      obtain ⟨head, applied⟩ := Option.isSome_iff_exists.mp (expanded.applied goal here)
      have filled := (onTrack.goals goal here).current.1.head?_fill applied
      rw [current] at filled
      rw [applied]
      exact filled.symm
    obtain ⟨before, inst, after, ρ, candidates, registered, serves, earlier⟩ :=
      servedFirst_candidatesFor (θ := fun _ => m) (ground t inside).free (direct t inside) head
    refine expanded.leads approaching.least sorted candidates ?_ ?_
    · rintro other among next r r' ran ⟨η, satisfies, single⟩
      have listed : other ∈ Registry.candidatesFor (instances false) goal.current := by
        rw [candidates]
        exact List.mem_append_left _ among
      obtain ⟨-, σ, returns⟩ := sound.solutions_of_attempt over_quantifierFree here
        (Registry.mem_candidatesFor.mp listed).1 ran satisfies
      rw [meant] at returns
      obtain ⟨rfl, narrow⟩ := earlier other among σ _ returns (single m member)
      exact clear ⟨inside, narrow⟩
    · intro attempted r r' ran
      obtain ⟨next, θ', opened, after, counter, older⟩ :=
        onTrack.opened_of_attempt over_quantifierFree perm registered (current ▸ serves) ran
      have same : θ' element = m := (older _ (element_older known)).trans target
      exact ⟨next, opened, ⟨θ', after, same, Nat.le_trans known counter⟩, after.score_le⟩

end Approaching

private theorem exists_solution_of_direct (ground : ∀ t ∈ types, t.Ground) (member : m ∈ types)
    (direct : ∀ t ∈ types, Widens 1 t m) (clear : ¬(litInt ∈ types ∧ m = int)) {limit k : Nat}
    {report report' : Report} {state : SearchState Built}
    (won : Registry.explore (instances false) limit elementTyper (commonGoals types) report =
      .ok (.won k state) report') :
    ∃ θ, Satisfies θ state.typer.classes ∧ θ element = m := by
  have bound : (types.map fun t => wideningCost (upcast t m)).sum = types.length := by
    rw [List.map_congr_left fun t inside => wideningCost_upcast (direct t inside)]
    simp
  have start := onTrack_common ground (ground m member) fun t inside => ⟨1, direct t inside⟩
  rw [bound] at start
  rw [Registry.explore_apply] at won
  obtain ⟨θ, onTrack, target, -⟩ := Resolution.good_of_won
    (fun approaching expanded => approaching.opened expanded)
    (fun approaching heading goals expanded =>
      approaching.leads ground member direct clear heading goals expanded)
    (fun approaching dull expanded => approaching.not_hopeful_opened dull expanded)
    (fun approaching score finished => approaching.hopeful_of_finished ground score finished)
    won (approaching_start ground) ⟨_, start, rfl, Nat.le_refl 1⟩
    (by simp [SearchState.score, SearchState.start, commonGoals])
  exact ⟨θ, onTrack.satisfies, target⟩

/-! The type that is found. -/

private theorem fill_of_direct (widens : Widens 1 a b) (proper : a ≠ nothing)
    (same : a.fill θ = a) : b.fill θ = b := by
  obtain ⟨one, step⟩ : ∃ one, one = 1 := ⟨_, rfl⟩
  rw [← step] at widens
  cases widens with
  | same => exact same
  | ofNothing => exact absurd rfl proper
  | named => exact fill_named θ _
  | mark => rw [fill_nullable, same]
  | marked => omega
  | list _ inside =>
    have positive := inside.pos
    omega

private theorem eq_bigInt_of_direct (fromLit : Widens 1 litInt c) (fromInt : Widens 1 int c)
    (differ : int ≠ c) : c = bigInt := by
  obtain ⟨a, source⟩ : ∃ a, a = int := ⟨_, rfl⟩
  obtain ⟨one, step⟩ : ∃ one, one = 1 := ⟨_, rfl⟩
  rw [← source, ← step] at fromInt
  cases fromInt with
  | same => exact absurd source.symm differ
  | ofNothing => exact absurd source (by decide)
  | @named _ s t row =>
    have only : ∀ row ∈ ladder, row.1 = "Int" → row.2.2 = 1 → row.2.1 = "BigInt" := by decide
    exact congrArg Term.named (only _ row (named_inj.mp source) step)
  | mark _ bare =>
    subst source
    rcases fromLit.to_nullable bare with ⟨equal, -⟩ | ⟨equal, -⟩ | ⟨equal, -⟩ | ⟨k, cost, -, -⟩
    · exact absurd equal (by decide)
    · exact absurd equal (by decide)
    · exact absurd equal (by decide)
    · omega
  | marked => omega
  | list => exact absurd source (listOf_ne_named _ _)

theorem ground_named (s : String) : (Term.named s).Ground :=
  ⟨quantifierFree_named s, Term.normal_con.mpr ⟨Term.applied_of_not_single (by simp) s, nofun⟩, rfl⟩

private theorem read_eq_of_ground {s : Classes} (sane : Sane Term.QuantifierFree s) {v : TypeVar}
    (ground : (s.solution v).Ground) : s.read (.use v) = s.solution v := by
  have free : (s.reading v).QuantifierFree :=
    Classes.builtFrom_reading sane.tidy sane.acyclic (fun _ _ bound => (sane.bound bound).1) v
  have closed : (s.reading v).freeVars = [] := by
    refine List.eq_nil_iff_forall_not_mem.mpr fun w inside => ?_
    have kept : s.representative w ∈ (s.solution v).freeVars :=
      (Term.mem_freeVars_fill free).mpr ⟨w, inside, List.mem_singleton_self _⟩
    rw [ground.closed] at kept
    cases kept
  have known : (s.reading v).Ground := ⟨free, s.normal_read (.use v), closed⟩
  exact (known.fill_eq _).symm

private theorem depth_le_of_won (ground : ∀ t ∈ types, t.Ground) (member : m ∈ types)
    (widest : ∀ t ∈ types, ∃ k, Widens k t m) {limit k : Nat} {report report' : Report}
    {state : SearchState Built}
    (won : Registry.explore (instances false) limit elementTyper (commonGoals types) report =
      .ok (.won k state) report') :
    state.depth ≤ (types.map fun t => wideningCost (upcast t m)).sum := by
  rw [Registry.explore_apply] at won
  rcases search_onTrack over_quantifierFree checked_instances won
    ⟨_, List.mem_singleton_self _, _, onTrack_common ground (ground m member) widest⟩ with
    ⟨_, _, equal, depth⟩ | ⟨_, _, _, _, equal, -⟩
  · cases equal
    exact depth
  · cases equal

private theorem direct_of_sum_le (member : m ∈ types) (widest : ∀ t ∈ types, ∃ k, Widens k t m)
    (widen : ∀ t ∈ types, ∃ k, Widens k t c) (differ : m ≠ c)
    (sum : (types.map fun t => wideningCost (upcast t c)).sum ≤
      (types.map fun t => wideningCost (upcast t m)).sum) :
    ∀ t ∈ types, Widens 1 t m ∧ Widens 1 t c := by
  obtain ⟨j, further⟩ := widen m member
  have tie : ∀ t ∈ types, wideningCost (upcast t m) = wideningCost (upcast t c) := by
    refine eq_of_sum_le (fun t inside => ?_) sum
    obtain ⟨i, first⟩ := widest t inside
    obtain ⟨l, whole⟩ := widen t inside
    rw [wideningCost_upcast first, wideningCost_upcast whole]
    exact first.cost_mono further whole
  have step : Widens 1 m c := by
    have one := tie m member
    rw [wideningCost_upcast (.same m), wideningCost_upcast further] at one
    exact one ▸ further
  intro t inside
  obtain ⟨i, first⟩ := widest t inside
  obtain ⟨l, whole⟩ := widen t inside
  have equal := tie t inside
  rw [wideningCost_upcast first, wideningCost_upcast whole] at equal
  subst equal
  obtain rfl := first.direct_of_tie step whole differ
  exact ⟨first, whole⟩

theorem common_of_won (ground : ∀ t ∈ types, t.Ground) (proper : ∃ t ∈ types, t ≠ nothing)
    {limit k : Nat} {report report' : Report} {state : SearchState Built}
    (won : Registry.explore (instances false) limit elementTyper (commonGoals types) report =
      .ok (.won k state) report') :
    (∀ t ∈ types, ∃ n, Derivable (instances false) .use n
        (upcast t (state.typer.read (.use element)))) ∧
      (state.typer.read (.use element) ∈ types ∨
        state.typer.read (.use element) = bigInt ∧ litInt ∈ types ∧ int ∈ types ∧
          ∀ t ∈ types, t = nothing ∨ t = litInt ∨ t = int) := by
  obtain ⟨sound, derives⟩ := derivableAll_of_won over_quantifierFree (.named 1 .refl)
    (quantifierFree_commonGoals ground) won
  have sane := sound.sane
  have plain : ∀ x t, state.typer.classes.bound? x = some t → t.QuantifierFree :=
    fun _ _ bound => (sane.bound bound).1
  have satisfies := Classes.satisfies_solution sane.tidy sane.acyclic plain
  obtain ⟨found, solution⟩ : ∃ found, state.typer.classes.solution element = found := ⟨_, rfl⟩
  have derivable := derives _ satisfies
  rw [fill_commonGoals ground, solution] at derivable
  obtain ⟨widen, atLeast⟩ := widens_of_derivableAll derivable
  have each : ∀ t ∈ types, ∃ n, Derivable (instances false) .use n (upcast t found) := by
    have closed : DerivableAll (instances false) .use state.depth
        (types.map fun t => upcast t found) :=
      derivable.congr fun inst registered v named free =>
        absurd (names_closed inst registered v named) free
    exact fun t inside => closed.each _ (List.mem_map_of_mem inside)
  obtain ⟨t, inside, notNothing⟩ := proper
  obtain ⟨m, member, widest⟩ := exists_widest (List.ne_nil_of_mem inside) widen
  have read (known : found.Ground) : state.typer.read (.use element) = found := by
    rw [← solution] at known ⊢
    exact read_eq_of_ground sane known
  by_cases same : m = found
  · subst same
    rw [read (ground m member)]
    exact ⟨each, .inl member⟩
  have direct : ∀ t ∈ types, Widens 1 t m ∧ Widens 1 t found :=
    direct_of_sum_le member widest widen same
      (Nat.le_trans atLeast (depth_le_of_won ground member widest won))
  have step : Widens 1 m found := (direct m member).2
  have some : m ≠ nothing := by
    rintro rfl
    exact notNothing (direct t inside).1.to_nothing
  -- had the order of the conversions favoured the widest, it would be what was found
  have unclear : litInt ∈ types ∧ m = int := by
    by_contra clear
    obtain ⟨θ, other, target⟩ := exists_solution_of_direct ground member
      (fun t inside => (direct t inside).1) clear won
    have filled := Classes.fill_solution sane.tidy sane.acyclic plain other element
    rw [solution, fill_of_direct step some ((ground m member).fill_eq θ), target] at filled
    exact same filled
  obtain ⟨literal, rfl⟩ := unclear
  obtain rfl := eq_bigInt_of_direct (direct _ literal).2 step same
  rw [read (ground_named _)]
  exact ⟨each, .inr ⟨rfl, literal, member, fun t inside => (direct t inside).1.to_int⟩⟩

end Standard

end TypedCalls
