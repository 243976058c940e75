import Mathlib.Tactic.Common
import TypedCalls.Proofs.Eval.Coercion
import TypedCalls.Proofs.Standard.CommonType

/-!
The type of a list that is made from values of several types.

With the standard instances it is a list of the widest of the types, and so of the least type that all
of them can be converted to (`liftList_type`). Lists of whole numbers in expressions and narrow
integers, and of nothing else but what has no values, may become lists of integers of any size.
-/

set_option autoImplicit false

namespace TypedCalls

/-- A conversion from one type to another can be found. -/
def Instances.Upcasts (instances : Instances) (a b : Term) : Prop :=
  ∃ report found report', Registry.resolve instances Resolution.maxExpansions .fresh
    [Standard.upcast a b] report = .ok found report'

namespace Standard

private theorem widens_of_upcasts {a b : Term} (groundA : a.Ground) (groundB : b.Ground)
    (upcasts : Instances.Upcasts (instances false) a b) : ∃ n, Widens n a b := by
  obtain ⟨report, found, report', resolved⟩ := upcasts
  obtain ⟨k, state, r, won, -⟩ := Registry.explored_of_resolve (List.cons_ne_nil _ _) resolved
  have free : (upcast a b).QuantifierFree :=
    (intact_upcast (groundA.intact .use) (groundB.intact .use)).quantifierFree
  obtain ⟨sound, derives⟩ :=
    derivableAll_of_won over_quantifierFree .refl (List.forall_mem_singleton.mpr free) won
  have sane := sound.sane
  have derivable := derives _ (Classes.satisfies_solution sane.tidy sane.acyclic
    fun _ _ bound => (sane.bound bound).1)
  obtain ⟨n, goal⟩ := derivable.each _ (List.mem_singleton_self _)
  rw [fill_upcast, groundA.fill_eq, groundB.fill_eq] at goal
  obtain ⟨m, -, widens⟩ := widens_of_derivable goal
  exact ⟨m, widens⟩

private theorem derivable_upcast_self (t : Term) :
    Derivable (instances false) .use 1 (upcast t t) := by
  have registered : conversion "A" A A .identity ∈ instances false := by simp [instances]
  have derivable : Derivable (instances false) .use 1 ((upcast A A).fill fun _ => t) :=
    .node registered (fun v named free => absurd (names_closed _ registered v named) free) .nil
  rwa [fill_upcast] at derivable

end Standard

open Standard

private theorem alike_or_explored {values : List Value} {lifted : Value} {report report' : Report}
    (nonempty : values ≠ []) (ran : liftList (instances false) values report = .ok lifted report') :
    (∃ t, lifted.type = listOf t ∧ ∀ v ∈ values, v.type = t) ∨
      (∀ t, ¬∀ v ∈ values, v.type = t) ∧ ∃ k state mid,
        Registry.explore (instances false) Resolution.maxExpansions elementTyper
          (commonGoals (values.map Value.type)) report = .ok (.won k state) mid ∧
        lifted.type = listOf (state.typer.read (.use element)) := by
  unfold liftList at ran
  split at ran
  · exact absurd rfl nonempty
  · next first rest =>
    split at ran
    · next alike =>
      cases ran
      exact .inl ⟨first.type, rfl, List.forall_mem_cons.mpr
        ⟨rfl, fun v later => eq_of_beq (List.all_eq_true.mp alike v later)⟩⟩
    · next mixed =>
      obtain ⟨found, mid, met, made⟩ := bind_eq_ok ran
      have goals : commonGoals ((first :: rest).map Value.type) =
          (first :: rest).map fun v => upcast v.type (.use element) := List.map_map
      have resolved : Registry.resolve (instances false) Resolution.maxExpansions elementTyper
          (commonGoals ((first :: rest).map Value.type)) report =
          .ok (found.1, found.2.map .ok) mid := by
        rw [goals]
        exact Instances.resolved_of_meet met
      obtain ⟨k, state, r, won, branch⟩ :=
        Registry.explored_of_resolve (List.cons_ne_nil _ _) resolved
      refine .inr ⟨fun t same => ?_, k, state, r, won, ?_⟩
      · obtain ⟨here, later⟩ := List.forall_mem_cons.mp same
        exact mixed (List.all_eq_true.mpr fun v inside =>
          beq_iff_eq.mpr ((later v inside).trans here.symm))
      · cases applied : applyAll (found.2.map Evidence.toCast) (first :: rest) with
        | ok payloads =>
          rw [applied] at made
          cases made
          exact congrArg (fun typer : Typer => listOf (typer.read (.use element))) branch
        | error fault =>
          rw [applied] at made
          cases made

/-- A list of values whose types are given outright, or are one and the same, is a list of one of the
types, which can be converted to whatever all of them can be converted to; or of integers of any size,
if the types are those of whole numbers in expressions and of narrow integers. -/
theorem liftList_type {values : List Value} (nonempty : values ≠ [])
    (types : (∀ v ∈ values, v.type.Ground) ∨ ∃ t, ∀ v ∈ values, v.type = t)
    {lifted : Value} {report report' : Report}
    (ran : liftList (instances false) values report = .ok lifted report') :
    ∃ t, lifted.type = listOf t ∧
      (∀ v ∈ values, ∃ n, Derivable (instances false) .use n (upcast v.type t)) ∧
      ((∃ v ∈ values, v.type = t) ∧
          (∀ u, (∀ v ∈ values, Instances.Upcasts (instances false) v.type u) →
            Instances.Upcasts (instances false) t u) ∨
        t = bigInt ∧ (∃ v ∈ values, v.type = litInt) ∧ (∃ v ∈ values, v.type = int) ∧
          ∀ v ∈ values, v.type = nothing ∨ v.type = litInt ∨ v.type = int) := by
  have least {t : Term} (among : ∃ v ∈ values, v.type = t) (u : Term)
      (all : ∀ v ∈ values, Instances.Upcasts (instances false) v.type u) :
      Instances.Upcasts (instances false) t u := by
    obtain ⟨v, inside, rfl⟩ := among
    exact all v inside
  rcases alike_or_explored nonempty ran with ⟨t, lifts, alike⟩ | ⟨several, k, state, mid, won, lifts⟩
  · obtain ⟨first, inside⟩ := List.exists_mem_of_ne_nil values nonempty
    have among : ∃ v ∈ values, v.type = t := ⟨first, inside, alike first inside⟩
    refine ⟨t, lifts, fun v member => ⟨1, ?_⟩, .inl ⟨among, least among⟩⟩
    rw [alike v member]
    exact derivable_upcast_self t
  · have ground : ∀ v ∈ values, v.type.Ground :=
      types.resolve_right (not_exists.mpr several)
    obtain ⟨v, inside, some⟩ : ∃ v ∈ values, v.type ≠ nothing := by
      by_contra none
      push Not at none
      exact several nothing none
    obtain ⟨derivable, which⟩ := common_of_won (List.forall_mem_map.mpr ground)
      ⟨v.type, List.mem_map_of_mem inside, some⟩ won
    refine ⟨_, lifts, fun v member => derivable _ (List.mem_map_of_mem member), ?_⟩
    rcases which with widest | ⟨big, literal, narrow, all⟩
    · have among := List.mem_map.mp widest
      exact .inl ⟨among, least among⟩
    · exact .inr ⟨big, List.mem_map.mp literal, List.mem_map.mp narrow, List.forall_mem_map.mp all⟩

/-! Several types with quantifiers or type parameters may be brought together at a type that is none of
them, since such a type agrees with each of its instances. -/

example :
    let a : TypeVar := ⟨"a"⟩
    let values : List Value := [⟨.int 1, int⟩, ⟨.int 2, .scheme .every [a] (Term.use a).nullable⟩]
    ((liftList (instances false) values).run' .quiet).map Value.type = some (listOf int.nullable) := by
  decide +kernel

example :
    let a : TypeVar := ⟨"a"⟩
    let values : List Value := [⟨.int 1, (Term.func [] [int] int).nullable⟩,
      ⟨.int 2, .func [a] [.use a] (.use a)⟩, ⟨.int 3, .func [] [string] string⟩]
    ((liftList (instances false) values).run' .quiet).map Value.type =
      some (listOf (Term.func [a] [.use a] (.use a)).nullable) := by
  decide +kernel

/-- A whole number in an expression, an integer of any size and a narrow one are lifted as integers of
any size. -/
theorem liftList_type_integers :
    let values : List Value := [⟨.int 7, litInt⟩, ⟨.int 3, bigInt⟩, ⟨.int (-3), int⟩]
    ∃ lifted report, liftList (instances false) values .quiet = .ok lifted report ∧
      lifted.type = listOf bigInt ∧
      ∀ u, (∀ v ∈ values, Instances.Upcasts (instances false) v.type u) →
        Instances.Upcasts (instances false) bigInt u := by
  intro values
  have ground : ∀ v ∈ values, v.type.Ground := by
    simp only [values, List.forall_mem_cons]
    exact ⟨ground_named _, ground_named _, ground_named _, nofun⟩
  have answer : ((liftList (instances false) values).run' .quiet).map Value.type =
      some (listOf bigInt) := by
    decide +kernel
  obtain ⟨lifted, report, ran, type⟩ := exists_ok_of_run' answer
  obtain ⟨t, same, -, which⟩ := liftList_type (List.cons_ne_nil _ _) (.inl ground) ran
  obtain rfl := listOf_inj.mp (type.symm.trans same)
  rcases which with ⟨-, least⟩ | ⟨-, -, -, few⟩
  · exact ⟨lifted, report, ran, type, least⟩
  · have wide : bigInt = nothing ∨ bigInt = litInt ∨ bigInt = int :=
      few ⟨.int 3, bigInt⟩ (by simp)
    exact absurd wide (by decide)

/-- A whole number in an expression and a narrow integer can both be converted to a narrow integer.
They are lifted as integers of any size, which cannot. -/
theorem liftList_not_least :
    let values : List Value := [⟨.int 7, litInt⟩, ⟨.int (-3), int⟩]
    ((liftList (instances false) values).run' .quiet).map Value.type = some (listOf bigInt) ∧
      (∀ v ∈ values, Instances.Upcasts (instances false) v.type int) ∧
      ¬Instances.Upcasts (instances false) bigInt int := by
  intro values
  have found {a b : Term} (ran : ((Registry.resolve (instances false) Resolution.maxExpansions .fresh
      [upcast a b]).run' .quiet).map (fun found => found.2.length) = some 1) :
      Instances.Upcasts (instances false) a b := by
    obtain ⟨answer, report, resolved, -⟩ := exists_ok_of_run' ran
    exact ⟨_, answer, report, resolved⟩
  refine ⟨by decide +kernel, ?_, fun upcasts => ?_⟩
  · exact List.forall_mem_cons.mpr ⟨found (by decide +kernel),
      List.forall_mem_singleton.mpr (found (by decide +kernel))⟩
  · obtain ⟨n, widens⟩ := widens_of_upcasts (ground_named _) (ground_named _) upcasts
    rcases widens.to_int with equal | equal | equal <;> exact absurd equal (by decide)

end TypedCalls
