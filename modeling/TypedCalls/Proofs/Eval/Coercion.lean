import TypedCalls.Eval.Evaluator
import TypedCalls.Proofs.Standard.Conversions

/-!
Coercion makes values belong where they are wanted.

A value that was made acceptable for a type belongs to it in every model of what the typer knows
then (`keeps_coerce`). What is learned later leaves fewer models, so all arguments of a call are
acceptable at once in the end (`keeps_coerceArguments`).
-/

set_option autoImplicit false

namespace TypedCalls

open Classes (Models emptySense)
open Typer (Learned)
open Typing (Keeps)

section

variable (known : Function → Prop) (named : Term → Prop)

/-- The payload belongs to the type, whatever its variables stand for. -/
structure Value.Sound (value : Value) : Prop where
  belongs : value.payload.Belongs known named (emptySense value.type)
  free : value.type.SchemeFree

/-- The value is sound, and belongs to what is expected in every model of what is known. -/
structure Value.Accepted (value : Value) (expected : Term) (s : Classes) : Prop where
  sound : value.Sound known named
  belongs : ∀ θ, Models θ s → value.payload.Belongs known named (expected.sense θ)

/-- Instances whose evidence does what it is for. -/
structure Instances.Trusted (instances : Instances) : Prop where
  sustains : Registry.Sustains instances (Built.Supports known named)
  schemeFree : Registry.Over Term.SchemeFree instances

end

variable {known : Function → Prop} {named : Term → Prop} {instances : Instances}

private theorem Value.Accepted.later {value : Value} {expected : Term} {s s' : Classes}
    (accepted : value.Accepted known named expected s) (extension : Problem.Extends s s') :
    value.Accepted known named expected s' :=
  ⟨accepted.sound, fun θ models => accepted.belongs θ (models.earlier extension)⟩

theorem Standard.trusted_instances (unions : Bool) :
    Instances.Trusted known named (Standard.instances unions) :=
  ⟨sustains_instances unions, over_instances unions⟩

private theorem Value.sound_of_models {s : Classes} (sane : Problem.Sane Term.SchemeFree s)
    {payload : Payload} {t : Term} (free : t.SchemeFree)
    (belongs : ∀ θ, Models θ s → payload.Belongs known named (t.sense θ)) :
    Value.Sound known named ⟨payload, s.read t⟩ := by
  refine ⟨?_, Classes.schemeFree_read sane free⟩
  rw [← Classes.sense_emptied]
  exact belongs _ (Classes.models_emptied sane.tidy sane.acyclic)

theorem Instances.resolved_of_meetWithin {limit : Nat} {typer : Typer} {goals : List Term}
    {found : Typer × List Evidence} {report report' : Report}
    (met : instances.meetWithin limit typer goals report = .ok found report') :
    Registry.resolve instances limit typer goals report =
      .ok (found.1, found.2.map .ok) report' := by
  unfold Instances.meetWithin at met
  split at met
  · cases met
  · next answer r resolved =>
    split at met
    · next evidence built =>
      cases met
      rw [resolved, ← eq_map_ok_of_mapM built]
    · cases met

theorem Instances.resolved_of_meet {typer : Typer} {goals : List Term}
    {found : Typer × List Evidence} {report report' : Report}
    (met : instances.meet typer goals report = .ok found report') :
    Registry.resolve instances Resolution.maxExpansions typer goals report =
      .ok (found.1, found.2.map .ok) report' :=
  resolved_of_meetWithin met

theorem Instances.Trusted.meet (trusted : instances.Trusted known named) {typer : Typer}
    (sound : typer.Sound .senses) {goals : List Term} (free : ∀ g ∈ goals, g.SchemeFree)
    {found : Typer × List Evidence} {report report' : Report}
    (met : instances.meet typer goals report = .ok found report') :
    Learned .senses typer found.1 ∧ ∀ θ, Models θ found.1.classes →
      List.Forall₂ (Evidence.Supports known named) found.2 (goals.map (Term.sense θ)) := by
  obtain ⟨learned, good⟩ := Registry.resolve_good trusted.sustains trusted.schemeFree sound free
    (Instances.resolved_of_meet met)
  refine ⟨learned, fun θ models => ?_⟩
  have supports := List.forall₂_map_left_iff.mp (good θ models)
  exact supports.imp fun ev goal supported => supported ev rfl

private theorem keeps_findCast (trusted : instances.Trusted known named) {value : Value}
    {target : Term} (freeValue : value.type.SchemeFree) (freeTarget : target.SchemeFree)
    (name : String) {s : Session} (sound : s.typer.Sound .senses) :
    Keeps .senses s.typer (fun cast typer => ∀ θ, Models θ typer.classes →
        cast.Converts known named (value.type.sense θ) (target.sense θ))
      (findCast instances value target name s) := by
  unfold findCast
  split
  · next typer evidence r met =>
    have free : ∀ g ∈ [Standard.upcast value.type target], g.SchemeFree :=
      List.forall_mem_singleton.mpr (Term.schemeFree_con.mpr (by simp [freeValue, freeTarget]))
    obtain ⟨learned, supports⟩ := trusted.meet sound free met
    refine .ok learned fun θ models => ?_
    obtain ⟨ev, others, here, nothing, rfl⟩ := List.forall₂_cons_right_iff.mp (supports θ models)
    exact here.converts _ _ (Standard.sense_upcast θ)
  · exact .error (.refl _ s.typer)
  · exact .error (.refl _ s.typer)
  · exact .error (.refl _ s.typer)

private theorem keeps_convert {value : Value} (soundValue : value.Sound known named) {target : Term}
    (freeTarget : target.SchemeFree) (name : String) {cast : Cast} {s : Session}
    (sound : s.typer.Sound .senses)
    (converts : ∀ θ, Models θ s.typer.classes →
      cast.Converts known named (value.type.sense θ) (target.sense θ)) :
    Keeps .senses s.typer (fun result typer => result.Accepted known named target typer.classes)
      (convert value target name cast s) := by
  unfold convert
  cases applied : cast.apply value.payload with
  | ok payload =>
    have belongs : ∀ θ, Models θ s.typer.classes →
        payload.Belongs known named (target.sense θ) := fun θ models =>
      converts θ models _ _ (soundValue.belongs.sense θ) applied
    exact .ok (.refl _ s.typer) ⟨Value.sound_of_models sound freeTarget belongs, belongs⟩
  | error fault => exact .error (.refl _ s.typer)

theorem keeps_coerce (trusted : instances.Trusted known named) {value : Value}
    (soundValue : value.Sound known named) {expected : Term} (freeExpected : expected.SchemeFree)
    (name : String) {s : Session} (sound : s.typer.Sound .senses) :
    Keeps .senses s.typer (fun result typer => result.Accepted known named expected typer.classes)
      (coerce instances value expected name s) := by
  have keeps := Typing.honours_unify .senses expected value.type s.trial sound freeExpected
    soundValue.free
  unfold coerce
  split
  · next t unified =>
    rw [unified] at keeps
    obtain ⟨learned, agree⟩ := keeps.success
    refine .ok learned ⟨soundValue, fun θ models => ?_⟩
    rw [agree θ models]
    exact soundValue.belongs.sense θ
  · exact .error (.refl _ s.typer)
  · next t _ =>
    have freeTarget : (s.typer.read expected).SchemeFree :=
      Classes.schemeFree_read sound freeExpected
    refine (Keeps.bind (keeps_findCast trusted soundValue.free freeTarget name
      (s := s.discard t.report) sound) fun cast s' learned converts =>
        keeps_convert soundValue freeTarget name (learned.sound sound) converts).imp ?_
    intro result typer learned accepted
    refine ⟨accepted.sound, fun θ models => ?_⟩
    have before := models.earlier (learned.extends sound)
    rw [← before.read sound.tidy sound.acyclic expected]
    exact accepted.belongs θ models

def Bound.Supplies (good : Param → Value → Prop) (params : List Param) (args : Bound) : Prop :=
  List.Forall₂ (fun param arg => ∃ value, arg = (param, some value) ∧ good param value) params args

theorem keeps_coerceArguments (trusted : instances.Trusted known named) (γ : Term.Mapping)
    {params : List Param} (free : ∀ param ∈ params, (param.type.subst γ).SchemeFree)
    {args : Bound} (supplies : args.Supplies (fun _ value => value.Sound known named) params)
    {s : Session} (sound : s.typer.Sound .senses) :
    Keeps .senses s.typer (fun checked typer => checked.Supplies (fun param value =>
        value.Accepted known named (param.type.subst γ) typer.classes) params)
      (coerceArguments instances γ args s) := by
  unfold coerceArguments
  induction supplies generalizing s with
  | nil => exact .ok (.refl _ s.typer) .nil
  | @cons param arg params args here _ ih =>
    obtain ⟨value, rfl, soundValue⟩ := here
    obtain ⟨freeHere, freeRest⟩ := List.forall_mem_cons.mp free
    rw [List.mapM_cons]
    have first : Keeps .senses s.typer (fun arg typer => ∃ result, arg = (param, some result) ∧
          result.Accepted known named (param.type.subst γ) typer.classes)
        ((do return (param, some (← coerce instances value (param.type.subst γ) param.name)) :
          Coercing (Param × Option Value)) s) :=
      Keeps.bind (keeps_coerce trusted soundValue freeHere param.name sound)
        fun result s' _ accepted => .ok (.refl _ s'.typer) ⟨result, rfl, accepted⟩
    refine Keeps.bind first ?_
    rintro arg s' learned ⟨result, rfl, accepted⟩
    have sound' := learned.sound sound
    refine Keeps.bind (ih freeRest sound') fun checked s'' later supplied => ?_
    exact .ok (.refl _ s''.typer)
      (.cons ⟨result, rfl, accepted.later (later.extends sound')⟩ supplied)

private theorem Value.sound_list {items : List Payload} {t : Term} (free : t.SchemeFree)
    (all : ∀ p ∈ items, p.Belongs known named (emptySense t)) :
    Value.Sound known named ⟨.list items, Standard.listOf t⟩ := by
  refine ⟨?_, Term.schemeFree_con.mpr (List.forall_mem_singleton.mpr free)⟩
  rw [emptySense, Standard.sense_listOf]
  exact .list all

private theorem belongs_applyAll {values : List Value} (sound : ∀ v ∈ values, v.Sound known named)
    {θ : TypeVar → Term} {element : Term} {evidence : List Evidence}
    (supports : List.Forall₂ (Evidence.Supports known named) evidence
      ((values.map fun v => Standard.upcast v.type element).map (Term.sense θ)))
    {payloads : List Payload}
    (applied : applyAll (evidence.map Evidence.toCast) values = .ok payloads) :
    ∀ p ∈ payloads, p.Belongs known named (element.sense θ) := by
  rw [List.map_map, List.forall₂_map_right_iff] at supports
  have pairs : ∀ pair ∈ (evidence.map Evidence.toCast).zip values,
      pair.2.Sound known named ∧
        pair.1.Converts known named (pair.2.type.sense θ) (element.sense θ) := by
    intro pair member
    rw [List.zip_map_left] at member
    obtain ⟨⟨ev, v⟩, inside, rfl⟩ := List.mem_map.mp member
    have supported := (List.forall₂_iff_zip.mp supports).2 inside
    exact ⟨sound v (List.of_mem_zip inside).2, supported.converts _ _ (Standard.sense_upcast θ)⟩
  refine forall_mem_of_forall₂ (forall₂_of_mapM_ok applied) fun pair member p made => ?_
  obtain ⟨soundValue, converts⟩ := pairs pair member
  exact converts _ p (soundValue.belongs.sense θ) made

theorem sound_liftList (trusted : instances.Trusted known named) {values : List Value}
    (sound : ∀ v ∈ values, v.Sound known named) {value : Value} {report report' : Report}
    (lifted : liftList instances values report = .ok value report') :
    value.Sound known named := by
  unfold liftList at lifted
  split at lifted
  · cases lifted
    exact Value.sound_list (by decide) fun p member => absurd member List.not_mem_nil
  · next first rest =>
    split at lifted
    · next alike =>
      cases lifted
      refine Value.sound_list (sound first (List.mem_cons_self ..)).free fun p member => ?_
      obtain ⟨v, inside, rfl⟩ := List.mem_map.mp member
      have same : v.type = first.type := by
        rcases List.mem_cons.mp inside with rfl | later
        · rfl
        · exact eq_of_beq (List.all_eq_true.mp alike v later)
      exact same ▸ (sound v inside).belongs
    · obtain ⟨found, r, met, made⟩ := bind_eq_ok lifted
      have free : ∀ v ∈ first :: rest, (Standard.upcast v.type
          (.use (Typer.fresh.freshVar .unification).1)).SchemeFree := fun v member =>
        Term.schemeFree_con.mpr (by simp [(sound v member).free, Term.SchemeFree])
      have fresh : (Typer.fresh.freshVar .unification).2.Sound .senses := Problem.sane_empty _
      obtain ⟨learned, supports⟩ := trusted.meet fresh (List.forall_mem_map.mpr free) met
      have sane := learned.sound fresh
      cases applied : applyAll (found.2.map Evidence.toCast) (first :: rest) with
      | ok payloads =>
        rw [applied] at made
        cases made
        refine Value.sound_list (Classes.schemeFree_read sane True.intro) ?_
        have models := Classes.models_emptied sane.tidy sane.acyclic
        have belongs := belongs_applyAll sound (supports _ models) applied
        rwa [Classes.sense_emptied] at belongs
      | error fault =>
        rw [applied] at made
        cases made

end TypedCalls
