import TypedCalls.Proofs.Instance.Senses
import TypedCalls.Proofs.Value.Inhabitation
import TypedCalls.Standard.Instances

/-!
The evidence of the standard instances does what its goal says: a conversion takes payloads of one
type to payloads of the other, and sums stay in their type.
-/

set_option autoImplicit false

namespace TypedCalls

section

variable (known : Function → Prop) (named : Term → Prop)

def Cast.Converts (cast : Cast) (a b : Term) : Prop :=
  ∀ p q, p.Belongs known named a → cast.apply p = .ok q → q.Belongs known named b

def Term.Summable (t : Term) : Prop :=
  ∀ p q r : Payload, p.Belongs known named t → q.Belongs known named t → p.add q = .ok r →
    r.Belongs known named t

/-- The evidence does what the goal says. -/
structure Evidence.Supports (ev : Evidence) (goal : Term) : Prop where
  converts : ∀ a b, goal = Standard.upcast a b → ev.toCast.Converts known named a b
  sums : ∀ t, goal = Standard.group t ∨ goal = Standard.monoid t → t.Summable known named

def Built.Supports (built : Built) (goal : Term) : Prop :=
  ∀ ev, built = .ok ev → ev.Supports known named goal

end

variable {known : Function → Prop} {named : Term → Prop} {a b c t : Term} {cast : Cast}

private theorem Number.bounds_of_isNarrow {n : Int} (narrow : (Number.int n).isNarrow = true) :
    -2147483648 ≤ n ∧ n ≤ 2147483647 := by
  simpa [isNarrow, worth?, intRange] using narrow

namespace Cast

private theorem converts_identity
    (included : ∀ p : Payload, p.Belongs known named a → p.Belongs known named b) :
    identity.Converts known named a b := by
  intro p q belongs applied
  cases applied
  exact included p belongs

private theorem converts_toInteger : toInteger.Converts known named a Standard.bigInt := by
  intro p q _ applied
  obtain ⟨n, -, rfl⟩ := Except.map_eq_ok applied
  exact .bigInt n

private theorem converts_toRational : toRational.Converts known named a Standard.rational := by
  intro p q _ applied
  obtain ⟨r, -, rfl⟩ := Except.map_eq_ok applied
  exact .rational r

private theorem converts_toReal : toReal.Converts known named a Standard.double := by
  intro p q _ applied
  obtain ⟨x, -, rfl⟩ := Except.map_eq_ok applied
  exact .double x

private theorem converts_toText : toText.Converts known named a Standard.string := by
  intro p q _ applied
  cases applied
  exact .string _

private theorem converts_toInt : toInt.Converts known named Standard.litInt Standard.int := by
  intro p q belongs applied
  obtain ⟨n, rfl⟩ := belongs.of_litInt
  simp only [apply, Payload.narrowed, Payload.number?] at applied
  split at applied
  · next narrow =>
    cases applied
    obtain ⟨low, high⟩ := Number.bounds_of_isNarrow narrow
    exact .int low high
  · cases applied

private theorem Converts.each (converts : cast.Converts known named a b) :
    (each cast).Converts known named (Standard.listOf a) (Standard.listOf b) := by
  intro p q belongs applied
  obtain ⟨items, rfl, all⟩ := belongs.of_listOf
  obtain ⟨parts, taken, applied⟩ := Except.bind_eq_ok applied
  cases taken
  obtain ⟨converted, ran, applied⟩ := Except.bind_eq_ok applied
  cases applied
  exact .list (forall_mem_of_forall₂ (forall₂_of_mapM_ok ran) fun item member made =>
    converts item made (all item member))

private theorem Converts.compose {second : Cast} (converts : cast.Converts known named a b)
    (further : second.Converts known named b c) :
    (compose cast second).Converts known named a c := by
  intro p q belongs applied
  obtain ⟨middle, first, applied⟩ := Except.bind_eq_ok applied
  exact further middle q (converts p middle belongs first) applied

private theorem converts_inject_first :
    (inject 0).Converts known named a (Standard.union2Of a b) := by
  intro p q belongs applied
  cases applied
  exact .first belongs

private theorem converts_inject_second :
    (inject 1).Converts known named a (Standard.union2Of b a) := by
  intro p q belongs applied
  cases applied
  exact .second belongs

private theorem Converts.within_first (converts : cast.Converts known named a b) :
    (within 0 cast).Converts known named (Standard.union2Of a c) (Standard.union2Of b c) := by
  intro p q belongs applied
  rcases belongs.of_union2Of with ⟨v, rfl, inside⟩ | ⟨v, rfl, inside⟩
  · obtain ⟨w, made, rfl⟩ := Except.map_eq_ok applied
    exact .first (converts v w inside made)
  · cases applied
    exact .second inside

private theorem Converts.within_second (converts : cast.Converts known named a b) :
    (within 1 cast).Converts known named (Standard.union2Of c a) (Standard.union2Of c b) := by
  intro p q belongs applied
  rcases belongs.of_union2Of with ⟨v, rfl, inside⟩ | ⟨v, rfl, inside⟩
  · cases applied
    exact .first inside
  · obtain ⟨w, made, rfl⟩ := Except.map_eq_ok applied
    exact .second (converts v w inside made)

end Cast

private theorem summable_bigInt : Standard.bigInt.Summable known named := by
  intro p q r left right added
  obtain ⟨m, rfl⟩ := left.of_bigInt
  obtain ⟨n, rfl⟩ := right.of_bigInt
  cases added
  exact .bigInt _

private theorem summable_rational : Standard.rational.Summable known named := by
  intro p q r left right added
  obtain ⟨m, rfl⟩ := left.of_rational
  obtain ⟨n, rfl⟩ := right.of_rational
  cases added
  exact .rational _

private theorem summable_double : Standard.double.Summable known named := by
  intro p q r left right added
  obtain ⟨x, rfl⟩ := left.of_double
  obtain ⟨y, rfl⟩ := right.of_double
  cases added
  exact .double _

private theorem Evidence.supports_cast {ev : Evidence}
    (converts : ev.toCast.Converts known named a b) :
    ev.Supports known named (Standard.upcast a b) := by
  refine ⟨fun a' b' same => ?_, fun t other => ?_⟩
  · cases same
    exact converts
  · rcases other with other | other <;> exact absurd other (Term.con_ne (by decide))

private theorem Evidence.supports_group {ev : Evidence} (summable : t.Summable known named) :
    ev.Supports known named (Standard.group t) := by
  refine ⟨fun a b other => absurd other (Term.con_ne (by decide)), fun u same => ?_⟩
  rcases same with same | other
  · cases same
    exact summable
  · exact absurd other (Term.con_ne (by decide))

private theorem Evidence.supports_monoid {ev : Evidence} (summable : t.Summable known named) :
    ev.Supports known named (Standard.monoid t) := by
  refine ⟨fun a b other => absurd other (Term.con_ne (by decide)), fun u same => ?_⟩
  rcases same with other | same
  · exact absurd other (Term.con_ne (by decide))
  · cases same
    exact summable

namespace Standard

section Senses

variable (θ : TypeVar → Term)

theorem sense_upcast : (upcast a b).sense θ = upcast (a.sense θ) (b.sense θ) :=
  Term.sense_con_of_ne θ (by decide) [a, b]

private theorem sense_group : (group t).sense θ = group (t.sense θ) :=
  Term.sense_con_of_ne θ (by decide) [t]

theorem sense_monoid : (monoid t).sense θ = monoid (t.sense θ) :=
  Term.sense_con_of_ne θ (by decide) [t]

theorem sense_listOf : (listOf t).sense θ = listOf (t.sense θ) :=
  Term.sense_con_of_ne θ (by decide) [t]

theorem sense_setOf : (setOf t).sense θ = setOf (t.sense θ) :=
  Term.sense_con_of_ne θ (by decide) [t]

theorem sense_mapOf : (mapOf a b).sense θ = mapOf (a.sense θ) (b.sense θ) :=
  Term.sense_con_of_ne θ (by decide) [a, b]

theorem sense_pairOf : (pairOf a b).sense θ = pairOf (a.sense θ) (b.sense θ) :=
  Term.sense_con_of_ne θ (by decide) [a, b]

theorem sense_union2Of : (union2Of a b).sense θ = union2Of (a.sense θ) (b.sense θ) :=
  Term.sense_con_of_ne θ (by decide) [a, b]

end Senses

private theorem exists_parts {build : List Evidence → Built} {parts : List Built} {ev : Evidence}
    (built : Built.ofParts build parts = .ok ev) :
    ∃ evs, parts = evs.map .ok ∧ build evs = .ok ev := by
  obtain ⟨evs, all, made⟩ := Except.bind_eq_ok built
  exact ⟨evs, eq_map_ok_of_mapM all, made⟩

private theorem sustains_conversion {params : String} {source target : Term}
    (converts : ∀ θ, cast.Converts known named (source.sense θ) (target.sense θ)) :
    (conversion params source target cast).Sustains (Built.Supports known named) := by
  intro θ values _ ev built
  cases built
  rw [conversion, sense_upcast]
  exact Evidence.supports_cast (converts θ)

private theorem sustains_conversion_named {source target : String}
    (converts : cast.Converts known named (.named source) (.named target)) :
    (conversion "" (.named source) (.named target) cast).Sustains (Built.Supports known named) :=
  sustains_conversion fun θ => by rwa [Term.sense_named, Term.sense_named]

private theorem sustains_lifted {params : String} {source target : Term} {lift : Cast → Cast}
    (converts : ∀ θ part, part.Converts known named (A.sense θ) (B.sense θ) →
      (lift part).Converts known named (source.sense θ) (target.sense θ)) :
    (lifted params source target lift).Sustains (Built.Supports known named) := by
  intro θ values good ev built
  obtain ⟨parts, rfl, made⟩ := exists_parts built
  cases made
  rw [lifted, sense_upcast]
  refine Evidence.supports_cast (converts θ _ ?_)
  cases parts with
  | nil => cases good
  | cons part parts =>
    cases good with
    | cons here _ => exact (here part rfl).converts _ _ (sense_upcast θ)

private theorem sustains_composition : composition.Sustains (Built.Supports known named) := by
  intro θ values good ev built
  obtain ⟨parts, rfl, made⟩ := exists_parts built
  cases made
  rw [composition, sense_upcast]
  refine Evidence.supports_cast ?_
  match parts, good with
  | [first, second], .cons one (.cons two .nil) =>
    exact ((one first rfl).converts _ _ (sense_upcast θ)).compose
      ((two second rfl).converts _ _ (sense_upcast θ))

private theorem sustains_groupOf {head : String} {zero : Payload}
    (summable : (Term.named head).Summable known named) :
    (groupOf (.named head) zero).Sustains (Built.Supports known named) := by
  intro θ values _ ev _
  rw [groupOf, sense_group, Term.sense_named]
  exact Evidence.supports_group summable

private theorem sustains_groupMonoid : groupMonoid.Sustains (Built.Supports known named) := by
  intro θ values good ev built
  obtain ⟨parts, rfl, -⟩ := exists_parts built
  rw [groupMonoid, sense_monoid]
  refine Evidence.supports_monoid ?_
  match parts, good with
  | [part], .cons here .nil =>
    exact (here part rfl).sums _ (.inl (sense_group θ))

private theorem sustains_unionInstances :
    Registry.Sustains unionInstances (Built.Supports known named) := by
  simp only [Registry.Sustains, unionInstances, List.forall_mem_cons]
  refine ⟨?_, ?_, ?_, ?_, fun inst member => absurd member List.not_mem_nil⟩
  · exact sustains_conversion fun θ => sense_union2Of θ ▸ Cast.converts_inject_first
  · exact sustains_conversion fun θ => sense_union2Of θ ▸ Cast.converts_inject_second
  · refine sustains_lifted fun θ part converts => ?_
    rw [sense_union2Of, sense_union2Of]
    exact converts.within_first
  · refine sustains_lifted fun θ part converts => ?_
    rw [sense_union2Of, sense_union2Of]
    exact converts.within_second

theorem sustains_instances (unions : Bool) :
    (instances unions).Sustains (Built.Supports known named) := by
  refine List.forall_mem_append.mpr ⟨?_, ?_⟩
  · simp only [List.forall_mem_cons]
    refine ⟨sustains_conversion fun θ => Cast.converts_identity fun _ => id,
      sustains_conversion fun θ => Cast.converts_identity fun p belongs => ?_,
      sustains_conversion fun θ => Cast.converts_identity fun p belongs => ?_,
      sustains_conversion_named Cast.converts_toInteger,
      sustains_conversion_named Cast.converts_toInt,
      sustains_conversion_named Cast.converts_toRational,
      sustains_conversion_named Cast.converts_toReal,
      sustains_conversion_named Cast.converts_toText,
      sustains_conversion_named Cast.converts_toInteger,
      sustains_conversion_named Cast.converts_toRational,
      sustains_conversion_named Cast.converts_toReal,
      sustains_lifted fun θ part converts => ?_,
      sustains_composition,
      sustains_groupOf summable_bigInt,
      sustains_groupOf summable_rational,
      sustains_groupOf summable_double,
      sustains_groupMonoid,
      fun inst member => absurd member List.not_mem_nil⟩
    · rw [nothing, Term.sense_named] at belongs
      exact absurd belongs Payload.not_belongs_nothing
    · rw [Term.sense_nullable]
      exact Payload.belongs_nullable.mpr belongs
    · rw [sense_listOf, sense_listOf]
      exact converts.each
  · cases unions with
    | false => exact fun inst member => absurd member List.not_mem_nil
    | true => exact sustains_unionInstances

theorem over_instances (unions : Bool) : (instances unions).Over Term.SchemeFree := by
  have terms : ∀ inst ∈ instances unions, ∀ t ∈ inst.rule.terms, t.SchemeFree := by
    cases unions <;> decide +kernel
  have outside : ∀ family, ∀ inst ∈ instances unions, ∀ v ∈ inst.rule.names,
      v.belongsTo family = false := by
    intro family
    cases unions <;> cases family <;> decide +kernel
  exact fun inst member => ⟨terms inst member, fun v inside =>
    TypeVar.not_madeUp_of_belongsTo fun family => outside family inst member v inside⟩

end Standard

end TypedCalls
