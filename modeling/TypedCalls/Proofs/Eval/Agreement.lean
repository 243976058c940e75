import Mathlib.Tactic.Common
import TypedCalls.Proofs.Eval.Soundness
import TypedCalls.Proofs.Instance.Soundness
import TypedCalls.Proofs.Typer.Rigidity

/-!
Checked arguments agree with their declared types.

Two terms without quantifiers read alike if every solution of what is known makes them equal
(`Classes.readAlike_iff_solutions`). Whatever is learned leaves fewer solutions (`Typer.Narrows`),
so terms that read alike do so for good. An argument is accepted by unification, which equates its
type with the declared one, or it is converted to what the declared type reads as. Either way the
two read alike then (`coerce_agrees`), and still do when all arguments are checked and the implicits
are found (`arguments_agree_once_checked`).
-/

set_option autoImplicit false

namespace TypedCalls

open Problem (Sane)
open Classes (Satisfies)

private theorem Term.QuantifierFree.schemeFree {t : Term} (free : t.QuantifierFree) :
    t.SchemeFree := by
  refine Term.BuiltFrom.induction ?_ ?_ ?_ free
  · intro head args _ parts
    exact Term.schemeFree_con.mpr fun a member => (parts a member).2
  · intro v
    trivial
  · intro params result parts
    exact Term.schemeFree_func.mpr fun p member => (parts p member).2

private theorem Classes.quantifierFree_of_bound {s : Classes} (sane : Sane Term.QuantifierFree s)
    (x : TypeVar) (t : Term) (bound : s.bound? x = some t) : t.QuantifierFree :=
  (sane.bound bound).1

theorem Classes.readAlike_iff_solutions {s : Classes} (sane : Sane Term.QuantifierFree s)
    {a b : Term} (freeA : a.QuantifierFree) (freeB : b.QuantifierFree) :
    s.ReadAlike a b ↔ ∀ θ, Satisfies θ s → a.fill θ = b.fill θ := by
  have bounds := quantifierFree_of_bound sane
  rw [readAlike_iff freeA freeB]
  constructor
  · intro same θ satisfies
    -- every solution factors through the one that reads
    have factors {t : Term} (free : t.QuantifierFree) : t.fill θ = (t.fill s.solution).fill θ := by
      rw [Term.fill_fill _ _ free]
      exact Term.fill_congr fun v _ => fill_solution sane.tidy sane.acyclic bounds satisfies v
    rw [factors freeA, same, ← factors freeB]
  · intro equal
    exact equal _ (satisfies_solution sane.tidy sane.acyclic bounds)

private theorem Classes.readAlike_read {s : Classes} (sane : Sane Term.QuantifierFree s) {t : Term}
    (free : t.QuantifierFree) : (s.read t).QuantifierFree ∧ s.ReadAlike (s.read t) t := by
  have bounds := quantifierFree_of_bound sane
  have freeRead : (s.read t).QuantifierFree := by
    rw [read_eq_fill]
    exact Term.builtFrom_fill free fun v _ => builtFrom_reading sane.tidy sane.acyclic bounds v
  refine ⟨freeRead, (readAlike_iff_solutions sane freeRead free).mpr fun θ satisfies => ?_⟩
  exact fill_read sane.tidy sane.acyclic bounds satisfies free

namespace Typer

/-- Nothing is rigid, and only terms without quantifiers are known. -/
structure Unquantified (typer : Typer) : Prop where
  rigid : typer.rigid = []
  sane : Sane Term.QuantifierFree typer.classes

/-- What the later typer knows has no solution but those of what the earlier one knows. -/
structure Narrows (earlier later : Typer) : Prop where
  unquantified : later.Unquantified
  solutions : ∀ θ, Satisfies θ later.classes → Satisfies θ earlier.classes

private theorem Narrows.refl {typer : Typer} (unquantified : typer.Unquantified) :
    typer.Narrows typer :=
  ⟨unquantified, fun _ => id⟩

private theorem Narrows.trans {first second third : Typer} (one : first.Narrows second)
    (two : second.Narrows third) : first.Narrows third :=
  ⟨two.unquantified, fun θ satisfies => one.solutions θ (two.solutions θ satisfies)⟩

private theorem Narrows.readAlike {earlier later : Typer} (narrows : earlier.Narrows later)
    (unquantified : earlier.Unquantified) {a b : Term} (freeA : a.QuantifierFree)
    (freeB : b.QuantifierFree) (alike : earlier.classes.ReadAlike a b) :
    later.classes.ReadAlike a b := by
  have before := (Classes.readAlike_iff_solutions unquantified.sane freeA freeB).mp alike
  exact (Classes.readAlike_iff_solutions narrows.unquantified.sane freeA freeB).mpr
    fun θ satisfies => before θ (narrows.solutions θ satisfies)

private theorem unquantified_freshFor (family : Family) (vars : List TypeVar) :
    (Typer.fresh.freshFor family vars).2.Unquantified := by
  rw [freshFor_snd]
  exact ⟨rfl, Problem.sane_empty _⟩

end Typer

open Typer (Unquantified Narrows)

private theorem Typer.Unquantified.sound {β : Type} {registry : Registry β} {typer : Typer}
    (unquantified : typer.Unquantified) {goals : List Term} (free : ∀ g ∈ goals, g.QuantifierFree) :
    (SearchState.start typer goals : SearchState β).Sound registry := by
  refine ⟨unquantified.rigid, unquantified.sane, fun g member => ?_, fun key choice found => ?_⟩
  · obtain ⟨t, inside, rfl⟩ := List.mem_map.mp member
    exact ⟨free t inside, fun _ _ => rfl⟩
  · cases found

private theorem Registry.won_of_resolve {β : Type} {registry : Registry β} {limit : Nat}
    {typer branch : Typer} {goals : List Term} {values : List β} {report report' : Report}
    (returned : registry.resolve limit typer goals report = .ok (branch, values) report') :
    (goals = [] ∧ branch = typer) ∨ ∃ k state r r', branch = state.typer ∧
      Resolution.search registry limit 0 [.start typer goals] none false r =
        .ok (.won k state) r' := by
  by_cases nothing : goals = []
  · subst nothing
    cases returned
    exact .inl ⟨rfl, rfl⟩
  · obtain ⟨k, state, r, ran, same⟩ := explored_of_resolve nothing returned
    exact .inr ⟨k, state, _, r, same, ran⟩

private theorem Registry.narrows_of_resolve {β : Type} {registry : Registry β}
    (rulesOver : registry.Over Term.QuantifierFree) {typer : Typer}
    (unquantified : typer.Unquantified) {goals : List Term} (free : ∀ g ∈ goals, g.QuantifierFree)
    {limit : Nat} {report report' : Report} {branch : Typer} {values : List β}
    (returned : registry.resolve limit typer goals report = .ok (branch, values) report') :
    typer.Narrows branch := by
  have later : branch.Unquantified := by
    rcases won_of_resolve returned with ⟨-, rfl⟩ | ⟨k, state, r, r', rfl, ran⟩
    · exact unquantified
    · have sound := sound_of_search rulesOver ran
        (List.forall_mem_singleton.mpr (unquantified.sound free))
      exact ⟨sound.rigid, sound.sane⟩
  have sound : typer.Sound .senses := unquantified.sane.mono fun _ => Term.QuantifierFree.schemeFree
  have rulesFree : registry.Over Term.SchemeFree := fun inst registered =>
    ⟨fun t term => ((rulesOver inst registered).1 t term).schemeFree,
      (rulesOver inst registered).2⟩
  have sustains : registry.Sustains fun _ _ => True := fun _ _ _ _ _ => trivial
  obtain ⟨learned, -⟩ :=
    resolve_good sustains rulesFree sound (fun g member => (free g member).schemeFree) returned
  exact ⟨later, fun θ satisfies =>
    satisfies.earlier unquantified.sane.tidy later.sane.tidy (learned.extends sound)⟩

section

variable {instances : Instances} (rulesOver : Registry.Over Term.QuantifierFree instances)

include rulesOver

private theorem Instances.narrows_of_meet {typer : Typer} (unquantified : typer.Unquantified)
    {goals : List Term} (free : ∀ g ∈ goals, g.QuantifierFree) {found : Typer × List Evidence}
    {report report' : Report} (met : instances.meet typer goals report = .ok found report') :
    typer.Narrows found.1 := by
  exact Registry.narrows_of_resolve rulesOver unquantified free (Instances.resolved_of_meet met)

private theorem narrows_of_findCast {value : Value} (freeValue : value.type.QuantifierFree)
    {target : Term} (freeTarget : target.QuantifierFree) {name : String} {cast : Cast}
    {s s' : Session} (unquantified : s.typer.Unquantified)
    (found : findCast instances value target name s = .ok cast s') :
    s.typer.Narrows s'.typer := by
  have free : ∀ g ∈ [Standard.upcast value.type target], g.QuantifierFree :=
    List.forall_mem_singleton.mpr (Term.builtFrom_con.mpr
      ⟨trivial, List.forall_mem_cons.mpr ⟨freeValue, List.forall_mem_singleton.mpr freeTarget⟩⟩)
  unfold findCast at found
  split at found
  · next typer evidence r met =>
    cases found
    exact Instances.narrows_of_meet rulesOver unquantified free met
  · cases found
  · cases found
  · cases found

omit rulesOver in
private theorem type_of_convert {value result : Value} {target : Term} {name : String} {cast : Cast}
    {s s' : Session} (converted : convert value target name cast s = .ok result s') :
    s'.typer = s.typer ∧ result.type = s.typer.read target := by
  unfold convert at converted
  cases applied : cast.apply value.payload with
  | ok payload =>
    rw [applied] at converted
    cases converted
    exact ⟨rfl, rfl⟩
  | error fault =>
    rw [applied] at converted
    cases converted

theorem coerce_agrees {value : Value} (free : value.type.QuantifierFree) {expected : Term}
    (freeExpected : expected.QuantifierFree) {name : String} {s s' : Session}
    (unquantified : s.typer.Unquantified) {result : Value}
    (coerced : coerce instances value expected name s = .ok result s') :
    s.typer.Narrows s'.typer ∧ result.type.QuantifierFree ∧
      s'.typer.classes.ReadAlike result.type expected := by
  unfold coerce at coerced
  split at coerced
  · next t unified =>
    cases coerced
    obtain ⟨kept, sane, solutions⟩ := Typing.unify_ok (s := s.trial) (Typing.tame_builtFrom _)
      unquantified.rigid unquantified.sane freeExpected free unified
    refine ⟨⟨⟨kept.rigid.trans unquantified.rigid, sane⟩, fun θ satisfies =>
      (solutions θ satisfies).1⟩, free, ?_⟩
    exact (Classes.readAlike_iff_solutions sane free freeExpected).mpr fun θ satisfies =>
      (solutions θ satisfies).2.symm
  · cases coerced
  · next t _ =>
    obtain ⟨cast, middle, found, converted⟩ := bind_eq_ok coerced
    obtain ⟨freeTarget, before⟩ := Classes.readAlike_read unquantified.sane freeExpected
    have narrows : s.typer.Narrows middle.typer :=
      narrows_of_findCast (s := s.discard t.report) rulesOver free freeTarget unquantified found
    obtain ⟨same, type⟩ := type_of_convert converted
    obtain ⟨freeResult, after⟩ := Classes.readAlike_read narrows.unquantified.sane freeTarget
    rw [same, type]
    refine ⟨narrows, freeResult, ?_⟩
    exact Eq.trans after (narrows.readAlike unquantified freeTarget freeExpected before)

end

namespace Bound

/-- The parameters, and whether there is a value for them. -/
def supplied (args : Bound) : List (Param × Bool) := args.map fun arg => (arg.1, arg.2.isSome)

/-- The type of every value is without quantifiers and reads like the declared one. -/
def Agrees (γ : Term.Mapping) (args : Bound) (s : Classes) : Prop :=
  ∀ arg ∈ args, ∀ value ∈ arg.2,
    value.type.QuantifierFree ∧ s.ReadAlike value.type (arg.1.type.subst γ)

private theorem Agrees.later {γ : Term.Mapping} {args : Bound} {earlier later : Typer}
    (agrees : args.Agrees γ earlier.classes) (narrows : earlier.Narrows later)
    (unquantified : earlier.Unquantified)
    (declared : ∀ arg ∈ args, (arg.1.type.subst γ).QuantifierFree) :
    args.Agrees γ later.classes := by
  intro arg member value given
  obtain ⟨free, alike⟩ := agrees arg member value given
  exact ⟨free, narrows.readAlike unquantified free (declared arg member) alike⟩

private theorem declared_of_supplied {P : Param → Prop} {args checked : Bound}
    (same : checked.supplied = args.supplied) (declared : ∀ arg ∈ args, P arg.1) :
    ∀ arg ∈ checked, P arg.1 := by
  intro arg member
  have listed : (arg.1, arg.2.isSome) ∈ args.supplied := same ▸ List.mem_map.mpr ⟨arg, member, rfl⟩
  obtain ⟨arg', inside, equal⟩ := List.mem_map.mp listed
  rw [← (Prod.mk.inj equal).1]
  exact declared arg' inside

end Bound

private theorem coerceArguments_append {instances : Instances} {γ : Term.Mapping}
    (before after : Bound) {s s' : Session} {checked : Bound}
    (coerced : coerceArguments instances γ (before ++ after) s = .ok checked s') :
    ∃ earlier middle later, coerceArguments instances γ before s = .ok earlier middle ∧
      coerceArguments instances γ after middle = .ok later s' ∧ checked = earlier ++ later := by
  unfold coerceArguments at coerced ⊢
  rw [List.mapM_append] at coerced
  obtain ⟨earlier, middle, first, rest⟩ := bind_eq_ok coerced
  obtain ⟨later, final, second, made⟩ := bind_eq_ok rest
  cases made
  exact ⟨earlier, middle, later, first, second, rfl⟩

section

variable {instances : Instances} (rulesOver : Registry.Over Term.QuantifierFree instances)
  {γ : Term.Mapping}

include rulesOver

private theorem coerceArguments_one_agrees {arg : Param × Option Value}
    (declared : (arg.1.type.subst γ).QuantifierFree)
    (values : ∀ value ∈ arg.2, value.type.QuantifierFree) {s s' : Session}
    (unquantified : s.typer.Unquantified) {checked : Bound}
    (coerced : coerceArguments instances γ [arg] s = .ok checked s') :
    s.typer.Narrows s'.typer ∧ checked.supplied = Bound.supplied [arg] ∧
      checked.Agrees γ s'.typer.classes := by
  unfold coerceArguments at coerced
  rw [List.mapM_cons] at coerced
  obtain ⟨first, middle, ran, rest⟩ := bind_eq_ok coerced
  cases rest
  obtain ⟨param, given⟩ := arg
  cases given with
  | none =>
    cases ran
    exact ⟨.refl unquantified, rfl, by simp [Bound.Agrees]⟩
  | some value =>
    obtain ⟨result, final, accepted, made⟩ := bind_eq_ok ran
    cases made
    obtain ⟨narrows, free, alike⟩ :=
      coerce_agrees rulesOver (values value rfl) declared unquantified accepted
    exact ⟨narrows, rfl, by simpa [Bound.Agrees] using ⟨free, alike⟩⟩

private theorem coerceArguments_agrees {args : Bound}
    (declared : ∀ arg ∈ args, (arg.1.type.subst γ).QuantifierFree)
    (values : ∀ arg ∈ args, ∀ value ∈ arg.2, value.type.QuantifierFree) {s s' : Session}
    (unquantified : s.typer.Unquantified) {checked : Bound}
    (coerced : coerceArguments instances γ args s = .ok checked s') :
    s.typer.Narrows s'.typer ∧ checked.supplied = args.supplied ∧
      checked.Agrees γ s'.typer.classes := by
  induction args generalizing s checked with
  | nil =>
    cases coerced
    exact ⟨.refl unquantified, rfl, by simp [Bound.Agrees]⟩
  | cons arg args ih =>
    obtain ⟨declaredHere, declaredLater⟩ := List.forall_mem_cons.mp declared
    obtain ⟨valueHere, valuesLater⟩ := List.forall_mem_cons.mp values
    obtain ⟨first, middle, others, one, rest, rfl⟩ := coerceArguments_append [arg] args coerced
    obtain ⟨narrows, supplied, agrees⟩ :=
      coerceArguments_one_agrees rulesOver declaredHere valueHere unquantified one
    obtain ⟨narrowsLater, suppliedLater, agreesLater⟩ :=
      ih declaredLater valuesLater narrows.unquantified rest
    have declaredFirst : ∀ arg ∈ first, (arg.1.type.subst γ).QuantifierFree :=
      Bound.declared_of_supplied (P := fun param => (param.type.subst γ).QuantifierFree) supplied
        (List.forall_mem_singleton.mpr declaredHere)
    refine ⟨narrows.trans narrowsLater, ?_, List.forall_mem_append.mpr ⟨?_, agreesLater⟩⟩
    · rw [Bound.supplied, List.map_append]
      exact congrArg₂ (· ++ ·) supplied suppliedLater
    · exact agrees.later narrowsLater narrows.unquantified declaredFirst

end

/-- No declared type and no implicit of a function has a quantifier, and no type parameter has the
form of a made-up variable. -/
structure Function.QuantifierFree (fn : Function) : Prop where
  params : ∀ param ∈ fn.params, param.type.QuantifierFree
  implicits : ∀ goal ∈ fn.implicits, goal.QuantifierFree
  given : ∀ v ∈ fn.typeParams, ¬v.MadeUp

private theorem Function.QuantifierFree.opened {fn : Function} (plain : fn.QuantifierFree)
    {t : Term} (free : t.QuantifierFree) : (t.subst fn.opened.1).QuantifierFree := by
  rw [Typer.fresh.subst_freshFor .unification plain.given]
  exact Term.builtFrom_fill free fun v _ => Typer.fresh.builtFrom_opening _ _ v

private theorem checkable_subset (fn : Function) (args : Bound) : checkable fn args ⊆ args := by
  unfold checkable
  split
  · exact List.take_subset _ _
  · exact List.Subset.refl _

private theorem checkCall_ok {instances : Instances} {fn : Function} {args : Bound}
    {store store' : Store} {checked : Bound} {typer : Typer} {found : Typer × List Evidence}
    (done : checkCall instances fn args store = .ok ((checked, typer), found) store') :
    ∃ s r r', coerceArguments instances fn.opened.1 (checkable fn args)
        (.start fn.opened.2 store.report) = .ok checked s ∧ typer = s.typer ∧
      instances.meet typer (fn.implicits.map fun goal => typer.read (goal.subst fn.opened.1)) r =
        .ok found r' := by
  obtain ⟨pair, middle, typed, rest⟩ := bind_eq_ok done
  obtain ⟨answer, final, reported, made⟩ := bind_eq_ok rest
  cases made
  unfold Evaluating.typing at typed
  unfold Evaluating.reporting at reported
  split at typed
  · next coerced s accepted =>
    cases typed
    split at reported
    · next _ r met =>
      cases reported
      exact ⟨s, _, r, accepted, rfl, met⟩
    · cases reported
  · cases typed

/-- Where the check of a call comes to its end, the call goes on with arguments that agree with
their declared types, in what is known when the implicits are found. The same parameters are
supplied. The first arguments agreed as soon as they were checked, however many they are, and
whatever read alike then still does after all arguments are checked and after the implicits are
found. -/
theorem arguments_agree_once_checked {instances : Instances}
    (rulesOver : Registry.Over Term.QuantifierFree instances) {fn : Function}
    (plain : fn.QuantifierFree) {args : Bound} (params : ∀ arg ∈ args, arg.1 ∈ fn.params)
    (values : ∀ arg ∈ args, ∀ value ∈ arg.2, value.type.QuantifierFree) {store store' : Store}
    {checked : Bound} {typer : Typer} {found : Typer × List Evidence}
    (done : checkCall instances fn args store = .ok ((checked, typer), found) store') :
    (∀ evaluate scope, callChecked instances evaluate fn args scope store =
      concludeCall instances evaluate fn scope checked found store') ∧
    checked.supplied = (checkable fn args).supplied ∧
    checked.Agrees fn.opened.1 found.1.classes ∧
    ∀ before after, checkable fn args = before ++ after → ∃ earlier s,
      coerceArguments instances fn.opened.1 before (.start fn.opened.2 store.report) =
        .ok earlier s ∧ earlier <+: checked ∧ earlier.Agrees fn.opened.1 s.typer.classes ∧
      ∀ a b : Term, a.QuantifierFree → b.QuantifierFree → s.typer.classes.ReadAlike a b →
        typer.classes.ReadAlike a b ∧ found.1.classes.ReadAlike a b := by
  obtain ⟨final, r, r', coerced, rfl, met⟩ := checkCall_ok done
  have inside := checkable_subset fn args
  have declared : ∀ arg ∈ checkable fn args, (arg.1.type.subst fn.opened.1).QuantifierFree :=
    fun arg member => plain.opened (plain.params arg.1 (params arg (inside member)))
  have free : ∀ arg ∈ checkable fn args, ∀ value ∈ arg.2, value.type.QuantifierFree :=
    fun arg member => values arg (inside member)
  have start : (Session.start fn.opened.2 store.report).typer.Unquantified :=
    Typer.unquantified_freshFor .unification fn.typeParams
  obtain ⟨narrows, supplied, agrees⟩ := coerceArguments_agrees rulesOver declared free start coerced
  have known := narrows.unquantified
  have goals : ∀ g ∈ fn.implicits.map fun goal => final.typer.read (goal.subst fn.opened.1),
      g.QuantifierFree := List.forall_mem_map.mpr fun goal member =>
    (Classes.readAlike_read known.sane (plain.opened (plain.implicits goal member))).1
  have narrowsFound := Instances.narrows_of_meet rulesOver known goals met
  have declaredChecked : ∀ arg ∈ checked, (arg.1.type.subst fn.opened.1).QuantifierFree :=
    Bound.declared_of_supplied (P := fun param => (param.type.subst fn.opened.1).QuantifierFree)
      supplied declared
  refine ⟨fun evaluate scope => ?_, supplied, agrees.later narrowsFound known declaredChecked, ?_⟩
  · unfold callChecked
    change EStateM.bind _ _ store = _
    rw [EStateM.bind, done]
  · intro before after parts
    rw [parts] at coerced declared free
    obtain ⟨declaredBefore, declaredAfter⟩ := List.forall_mem_append.mp declared
    obtain ⟨freeBefore, freeAfter⟩ := List.forall_mem_append.mp free
    obtain ⟨earlier, s, later, first, second, rfl⟩ := coerceArguments_append before after coerced
    obtain ⟨narrowsFirst, -, agreesFirst⟩ :=
      coerceArguments_agrees rulesOver declaredBefore freeBefore start first
    obtain ⟨narrowsSecond, -, -⟩ := coerceArguments_agrees rulesOver declaredAfter freeAfter
      narrowsFirst.unquantified second
    refine ⟨earlier, s, first, List.prefix_append earlier later, agreesFirst, ?_⟩
    intro a b freeA freeB alike
    have afterwards := narrowsSecond.readAlike narrowsFirst.unquantified freeA freeB alike
    exact ⟨afterwards, narrowsFound.readAlike known freeA freeB afterwards⟩

/-- A literal is converted for the first parameter, the second argument settles the type parameter,
the third is nothing of that type, and the fourth is left out. A monoid for the type parameter is
found as well. -/
theorem arguments_agree_once_checked_converted :
    let a : TypeVar := ⟨"a"⟩
    let fn : Function :=
      { id := 0, name := "scale", typeParams := [a]
        params := [.required "factor" Standard.bigInt, .required "item" (.use a),
          .required "default" (Term.nullable (.use a)), ⟨"extra", .use a, .optional, false⟩]
        result := .use a, implicits := [Standard.monoid (.use a)], body := .host .all }
    let instances : Instances :=
      [Standard.conversion "" Standard.litInt Standard.bigInt .toInteger,
        Standard.groupOf Standard.bigInt (.int 0), Standard.groupMonoid]
    let args : Bound := fn.params.zip
      [some ⟨.int 2, Standard.litInt⟩, some ⟨.int 3, Standard.bigInt⟩,
        some ⟨.none, Term.nullable Standard.bigInt⟩, none]
    Registry.Over Term.QuantifierFree instances ∧ fn.QuantifierFree ∧
      (∀ arg ∈ args, arg.1 ∈ fn.params) ∧
      (∀ arg ∈ args, ∀ value ∈ arg.2, value.type.QuantifierFree) ∧
      ∃ checked typer found store, checkCall instances fn args (.empty .quiet) =
          .ok ((checked, typer), found) store ∧
        checked.map (fun arg => arg.2.map Value.type) = [some Standard.bigInt, some Standard.bigInt,
          some (Term.nullable Standard.bigInt), none] ∧
        checked.Agrees fn.opened.1 found.1.classes := by
  intro a fn instances args
  have rulesOver : Registry.Over Term.QuantifierFree instances := by
    have given : ¬(⟨"A"⟩ : TypeVar).MadeUp := TypeVar.not_madeUp_of_belongsTo fun family => by
      cases family <;> decide
    simp [Registry.Over, instances, Standard.conversion, Standard.groupOf, Standard.groupMonoid,
      Standard.upcast, Standard.group, Standard.monoid, Standard.litInt, Standard.bigInt,
      Standard.A, Standard.typeParams, Rule.terms, Rule.names, Term.named, Term.QuantifierFree,
      Term.BuiltFrom, Term.BuiltFromAll, Term.freeVars, Term.freeVarsAll, given]
  have plain : fn.QuantifierFree := by
    have given : ¬a.MadeUp := TypeVar.not_madeUp_of_belongsTo fun family => by
      cases family <;> decide
    constructor <;> simp [fn, Param.required, Standard.bigInt, Standard.monoid, Term.named,
      Term.nullable, Term.QuantifierFree, Term.BuiltFrom, Term.BuiltFromAll, given]
  have params : ∀ arg ∈ args, arg.1 ∈ fn.params := by
    simp [args, fn]
  have values : ∀ arg ∈ args, ∀ value ∈ arg.2, value.type.QuantifierFree := by
    simp [args, fn, Standard.litInt, Standard.bigInt, Term.named, Term.nullable,
      Term.QuantifierFree, Term.BuiltFrom, Term.BuiltFromAll, Term.nullableHead]
  have answer : ((checkCall instances fn args).run' (.empty .quiet)).map
      (fun done => done.1.1.map fun arg => arg.2.map Value.type) =
        some [some Standard.bigInt, some Standard.bigInt, some (Term.nullable Standard.bigInt),
          none] := by
    decide +kernel
  obtain ⟨⟨⟨checked, typer⟩, found⟩, store, done, types⟩ := exists_ok_of_run' answer
  obtain ⟨-, -, agrees, -⟩ := arguments_agree_once_checked rulesOver plain params values done
  exact ⟨rulesOver, plain, params, values, checked, typer, found, store, done, types, agrees⟩

end TypedCalls
