import TypedCalls.Proofs.Eval.Coercion

/-!
Conversions never make a type smaller.

The bulk of a type is the number of its constructors that are applied to something, apart from
nullable markers and the insides of functions. No standard conversion leads to a type of less bulk
(`weighed_instances`). So the argument of a call has no more bulk than the parameter it was made
acceptable for, in every model of what the call has learned (`keeps_coerce_bulk`). A type that has a
variable inside has more bulk than the variable, and is never acceptable for it.
-/

set_option autoImplicit false

namespace TypedCalls

open Classes (Models)
open Typing (Keeps)

namespace Term

mutual

def bulk : Term → Nat
  | .con head args => (if head = nullableHead ∨ args.isEmpty then 0 else 1) + bulkAll args
  | .use _ | .scheme .. | .func .. => 0

def bulkAll : List Term → Nat
  | [] => 0
  | t :: ts => t.bulk + bulkAll ts

end

private theorem bulk_le_bulkAll {t : Term} {ts : List Term} (member : t ∈ ts) :
    t.bulk ≤ bulkAll ts := by
  induction ts with
  | nil => cases member
  | cons u ts ih =>
    rw [bulkAll]
    rcases List.mem_cons.mp member with rfl | later
    · exact Nat.le_add_right _ _
    · exact (ih later).trans (Nat.le_add_left _ _)

private theorem bulk_marked (t : Term) : (con nullableHead [t]).bulk = t.bulk := by
  simp [bulk, bulkAll]

private theorem bulk_named (head : String) : (named head).bulk = 0 := by
  simp [bulk, bulkAll]

private theorem bulk_nullable (t : Term) : t.nullable.bulk = t.bulk := by
  cases t with
  | con head args =>
    rw [nullable]
    split
    · rfl
    · exact bulk_marked _
  | use v => exact bulk_marked _
  | scheme quantifier vars body => rw [nullable, bulk, bulk]
  | func typeParams params result => exact bulk_marked _

private theorem bulk_applied (head : String) (args : List Term) :
    (applied head args).bulk = (con head args).bulk := by
  unfold applied
  split
  · split
    · next marked => rw [marked, bulk_marked, bulk_nullable]
    · rfl
  · rfl

variable {θ : TypeVar → Term}

private theorem bulk_sense_con (head : String) (args : List Term) :
    ((con head args).sense θ).bulk =
      (if head = nullableHead ∨ args.isEmpty then 0 else 1) + bulkAll (args.map (sense θ)) := by
  rw [sense_con, bulk_applied, bulk, List.isEmpty_map]

mutual

def outerVars : Term → List TypeVar
  | .con _ args => outerVarsAll args
  | .use v => [v]
  | .scheme .. | .func .. => []

def outerVarsAll : List Term → List TypeVar
  | [] => []
  | t :: ts => t.outerVars ++ outerVarsAll ts

end

private theorem outerVarsAll_eq_flatMap (ts : List Term) :
    outerVarsAll ts = ts.flatMap outerVars := by
  induction ts with
  | nil => rfl
  | cons t ts ih => rw [outerVarsAll, ih, List.flatMap_cons]

private theorem bulk_le_bulk_sense {t : Term} {v : TypeVar} (outer : v ∈ t.outerVars) :
    (θ v).bulk ≤ (t.sense θ).bulk := by
  induction t using Term.induct with
  | con head args ih =>
    rw [outerVars, outerVarsAll_eq_flatMap] at outer
    obtain ⟨a, member, inside⟩ := List.mem_flatMap.mp outer
    calc (θ v).bulk ≤ (a.sense θ).bulk := ih a member inside
      _ ≤ bulkAll (args.map (sense θ)) := bulk_le_bulkAll (List.mem_map_of_mem member)
      _ ≤ _ := by rw [bulk_sense_con]; exact Nat.le_add_left _ _
  | use w => rw [List.mem_singleton.mp outer, sense_use]
  | scheme quantifier vars body _ => cases outer
  | func typeParams params result _ _ => cases outer

/-- The term applies a constructor, other than the nullable marker, to something that has the
variable in it. -/
def Nests (v : TypeVar) (t : Term) : Prop :=
  ∃ head args, t = con head args ∧ head ≠ nullableHead ∧ v ∈ t.outerVars

theorem Nests.bulk_lt {t : Term} {v : TypeVar} (nests : t.Nests v) :
    (θ v).bulk < (t.sense θ).bulk := by
  obtain ⟨head, args, rfl, plain, outer⟩ := nests
  rw [outerVars, outerVarsAll_eq_flatMap] at outer
  obtain ⟨a, member, inside⟩ := List.mem_flatMap.mp outer
  have proper : ¬(head = nullableHead ∨ args.isEmpty) := by
    rw [List.isEmpty_iff]
    exact not_or.mpr ⟨plain, List.ne_nil_of_mem member⟩
  calc (θ v).bulk ≤ (a.sense θ).bulk := bulk_le_bulk_sense inside
    _ ≤ bulkAll (args.map (sense θ)) := bulk_le_bulkAll (List.mem_map_of_mem member)
    _ < _ := by rw [bulk_sense_con, if_neg proper]; omega

end Term

/-! Instances. -/

def Term.Heavier (goal : Term) : Prop := ∀ a b, goal = Standard.upcast a b → a.bulk ≤ b.bulk

private theorem Term.heavier_upcast {a b : Term} (le : a.bulk ≤ b.bulk) :
    (Standard.upcast a b).Heavier := by
  intro c d equal
  cases equal
  exact le

private theorem Term.Heavier.le {a b : Term} (heavier : (Standard.upcast a b).Heavier) :
    a.bulk ≤ b.bulk :=
  heavier a b rfl

namespace Standard

abbrev Weighed (_ : Built) (goal : Term) : Prop := goal.Heavier

private theorem weighed_conversion {params : String} {source target : Term} {cast : Cast}
    (le : ∀ θ, (source.sense θ).bulk ≤ (target.sense θ).bulk) :
    (conversion params source target cast).Sustains Weighed := by
  intro θ values _
  rw [conversion, sense_upcast]
  exact Term.heavier_upcast (le θ)

private theorem weighed_conversion_named {source target : String} {cast : Cast} :
    (conversion "" (.named source) (.named target) cast).Sustains Weighed :=
  weighed_conversion fun θ => by
    rw [Term.sense_named, Term.bulk_named]
    exact Nat.zero_le _

private theorem weighed_lifted {params : String} {source target : Term} {lift : Cast → Cast}
    (le : ∀ θ, (A.sense θ).bulk ≤ (B.sense θ).bulk →
      (source.sense θ).bulk ≤ (target.sense θ).bulk) :
    (lifted params source target lift).Sustains Weighed := by
  intro θ values good
  obtain ⟨part, parts, here, -⟩ := List.forall₂_cons_right_iff.mp good
  rw [sense_upcast] at here
  rw [lifted, sense_upcast]
  exact Term.heavier_upcast (le θ here.le)

private theorem weighed_composition : composition.Sustains Weighed := by
  intro θ values good
  obtain ⟨first, rest, one, good, -⟩ := List.forall₂_cons_right_iff.mp good
  obtain ⟨second, -, two, -⟩ := List.forall₂_cons_right_iff.mp good
  rw [sense_upcast] at one two
  rw [composition, sense_upcast]
  exact Term.heavier_upcast (one.le.trans two.le)

private theorem weighed_of_head_ne {inst : Instance Built} {head : String} {args : List Term}
    (returns : inst.rule.returns = .con head args) (plain : head ≠ Term.nullableHead)
    (other : head ≠ "Upcast") : inst.Sustains Weighed := by
  intro θ values _ a b equal
  rw [returns, Term.sense_con_of_ne θ plain] at equal
  exact absurd equal (Term.con_ne other)

private theorem bulk_listOf (t : Term) : (listOf t).bulk = 1 + t.bulk := by
  simp [listOf, Term.bulk, Term.bulkAll, Term.nullableHead]

private theorem bulk_union2Of (a b : Term) : (union2Of a b).bulk = 1 + (a.bulk + b.bulk) := by
  simp [union2Of, Term.bulk, Term.bulkAll, Term.nullableHead]

private theorem weighed_unionInstances : Registry.Sustains unionInstances Weighed := by
  simp only [Registry.Sustains, unionInstances, List.forall_mem_cons]
  refine ⟨weighed_conversion fun θ => ?_, weighed_conversion fun θ => ?_,
    weighed_lifted fun θ le => ?_, weighed_lifted fun θ le => ?_,
    fun inst member => absurd member List.not_mem_nil⟩
  · rw [sense_union2Of, bulk_union2Of]
    omega
  · rw [sense_union2Of, bulk_union2Of]
    omega
  · rw [sense_union2Of, sense_union2Of, bulk_union2Of, bulk_union2Of]
    omega
  · rw [sense_union2Of, sense_union2Of, bulk_union2Of, bulk_union2Of]
    omega

theorem weighed_instances (unions : Bool) : (instances unions).Sustains Weighed := by
  refine List.forall_mem_append.mpr ⟨?_, ?_⟩
  · simp only [List.forall_mem_cons]
    refine ⟨weighed_conversion fun θ => le_rfl, weighed_conversion fun θ => ?_,
      weighed_conversion fun θ => ?_, weighed_conversion_named, weighed_conversion_named,
      weighed_conversion_named, weighed_conversion_named, weighed_conversion_named,
      weighed_conversion_named, weighed_conversion_named, weighed_conversion_named,
      weighed_lifted fun θ le => ?_, weighed_composition,
      weighed_of_head_ne rfl (by decide) (by decide), weighed_of_head_ne rfl (by decide) (by decide),
      weighed_of_head_ne rfl (by decide) (by decide), weighed_of_head_ne rfl (by decide) (by decide),
      fun inst member => absurd member List.not_mem_nil⟩
    · rw [nothing, Term.sense_named, Term.bulk_named]
      exact Nat.zero_le _
    · rw [Term.sense_nullable, Term.bulk_nullable]
    · rw [sense_listOf, sense_listOf, bulk_listOf, bulk_listOf]
      omega
  · cases unions with
    | false => exact fun inst member => absurd member List.not_mem_nil
    | true => exact weighed_unionInstances

end Standard

/-! Coercion. -/

private theorem keeps_findCast_bulk (unions : Bool) {value : Value} {target : Term}
    (freeValue : value.type.SchemeFree) (freeTarget : target.SchemeFree) (name : String)
    {s : Session} (sound : s.typer.Sound .senses) :
    Keeps .senses s.typer (fun _ typer => ∀ θ, Models θ typer.classes →
        (value.type.sense θ).bulk ≤ (target.sense θ).bulk)
      (findCast (Standard.instances unions) value target name s) := by
  unfold findCast
  split
  · next typer evidence r met =>
    have free : ∀ g ∈ [Standard.upcast value.type target], g.SchemeFree :=
      List.forall_mem_singleton.mpr (Term.schemeFree_con.mpr (by simp [freeValue, freeTarget]))
    obtain ⟨learned, good⟩ := Registry.resolve_good (Standard.weighed_instances unions)
      (Standard.over_instances unions) sound free (Instances.resolved_of_meet met)
    refine .ok learned fun θ models => ?_
    obtain ⟨ev, others, here, -⟩ := List.forall₂_cons_right_iff.mp (good θ models)
    rw [Standard.sense_upcast] at here
    exact here.le
  · exact .error (.refl _ s.typer)
  · exact .error (.refl _ s.typer)
  · exact .error (.refl _ s.typer)

/-- The type of a value that was made acceptable has no more bulk than what was expected. -/
theorem keeps_coerce_bulk (unions : Bool) {value : Value} {expected : Term}
    (freeValue : value.type.SchemeFree) (freeExpected : expected.SchemeFree) (name : String)
    {s : Session} (sound : s.typer.Sound .senses) :
    Keeps .senses s.typer (fun _ typer => ∀ θ, Models θ typer.classes →
        (value.type.sense θ).bulk ≤ (expected.sense θ).bulk)
      (coerce (Standard.instances unions) value expected name s) := by
  have keeps := Typing.honours_unify .senses expected value.type s.trial sound freeExpected freeValue
  unfold coerce
  split
  · next t unified =>
    rw [unified] at keeps
    obtain ⟨learned, agree⟩ := keeps.success
    exact .ok learned fun θ models => (agree θ models).symm ▸ le_rfl
  · exact .error (.refl _ s.typer)
  · next t _ =>
    have freeTarget : (s.typer.read expected).SchemeFree :=
      Classes.schemeFree_read sound freeExpected
    have found : Keeps .senses (s.discard t.report).typer (fun _ typer => ∀ θ, Models θ typer.classes →
          (value.type.sense θ).bulk ≤ (expected.sense θ).bulk)
        (findCast (Standard.instances unions) value (s.typer.read expected) name
          (s.discard t.report)) := by
      refine (keeps_findCast_bulk unions freeValue freeTarget name (s := s.discard t.report)
        sound).imp ?_
      intro cast typer learned le θ models
      have before := models.earlier (learned.extends sound)
      have same : (s.typer.read expected).sense θ = expected.sense θ :=
        before.read sound.tidy sound.acyclic expected
      exact same ▸ le θ models
    refine Keeps.bind found fun cast s' learned le => ?_
    unfold convert
    cases cast.apply value.payload with
    | ok payload => exact .ok (.refl _ s'.typer) le
    | error fault => exact .error (.refl _ s'.typer)

theorem keeps_coerceArguments_bulk (unions : Bool) (γ : Term.Mapping) {args : Bound}
    (free : ∀ arg ∈ args, (arg.1.type.subst γ).SchemeFree ∧ ∀ value ∈ arg.2, value.type.SchemeFree)
    {s : Session} (sound : s.typer.Sound .senses) :
    Keeps .senses s.typer (fun _ typer => ∀ θ, Models θ typer.classes →
        ∀ arg ∈ args, ∀ value ∈ arg.2,
          (value.type.sense θ).bulk ≤ ((arg.1.type.subst γ).sense θ).bulk)
      (coerceArguments (Standard.instances unions) γ args s) := by
  unfold coerceArguments
  induction args generalizing s with
  | nil => exact .ok (.refl _ s.typer) fun θ _ arg member => absurd member List.not_mem_nil
  | cons arg args ih =>
    obtain ⟨⟨freeParam, freeValue⟩, freeRest⟩ := List.forall_mem_cons.mp free
    obtain ⟨param, supplied⟩ := arg
    rw [List.mapM_cons]
    cases supplied with
    | none =>
      dsimp only
      rw [pure_bind]
      refine Keeps.bind (ih freeRest sound) fun checked s' _ there => .ok (.refl _ s'.typer) ?_
      refine fun θ models => List.forall_mem_cons.mpr ⟨fun other absent => ?_, there θ models⟩
      cases absent
    | some value =>
      have first : Keeps .senses s.typer (fun _ typer => ∀ θ, Models θ typer.classes →
            (value.type.sense θ).bulk ≤ ((param.type.subst γ).sense θ).bulk)
          ((do return (param, some (← coerce (Standard.instances unions) value
            (param.type.subst γ) param.name)) : Coercing (Param × Option Value)) s) :=
        Keeps.bind (keeps_coerce_bulk unions (freeValue value rfl) freeParam param.name sound)
          fun result s' _ le => .ok (.refl _ s'.typer) le
      refine Keeps.bind first fun checked s' learned here => ?_
      have sound' := learned.sound sound
      refine Keeps.bind (ih freeRest sound') fun rest s'' later there => .ok (.refl _ s''.typer) ?_
      refine fun θ models => List.forall_mem_cons.mpr ⟨fun other same => ?_, there θ models⟩
      cases same
      exact here θ (models.earlier (later.extends sound'))

end TypedCalls
