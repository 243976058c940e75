import TypedCalls.Proofs.Eval.Neatness
import TypedCalls.Proofs.Standard.Bulk

/-!
Calls of the pairing function.

A call puts the names ξ1 and ξ2 in the place of the type parameters, whatever other calls have left
open. If neither of the two values has the name of its own parameter in its type, nor each that of
the other's, a pair is made (`call_pair_of_untangled`), and its type is that of both values with the
names filled. If a value has the name of its own parameter inside its type, no pair is made
(`call_pair_fails_of_confused`): what it stands for would be part of itself.
-/

set_option autoImplicit false

namespace TypedCalls

open TypeVar (numbered)
open Classes (LeadsTo Tidy Acyclic)

namespace Typing

private theorem unify_unbound {v : TypeVar} {t : Term} {s : Session} (flexible : s.typer.rigid = [])
    (unbound : s.typer.classes.bound? v = none) (notUse : ∀ w, t ≠ .use w)
    (free : s.typer.classes.occurs v t = false) :
    unify (.use v) t s = bindTo v t s := by
  obtain ⟨depth, positive⟩ : ∃ depth, s.typer.depthFor (.use v) t = depth + 1 :=
    Nat.exists_eq_succ_of_ne_zero (by unfold Typer.depthFor; omega)
  have learns : learn v t s = (permit v t >>= fun _ => bindTo v t) s := by
    cases t with
    | use w => exact absurd rfl (notUse w)
    | con head args => rfl
    | scheme quantifier vars body => rfl
    | func typeParams params result => rfl
  have permits : permit v t s = .ok () s := by
    show (if s.typer.isRigid v = true then clash .rigid (.use v) t
      else if s.typer.classes.occurs v t = true then clash .recursive (.use v) t
      else pure () : Typing Unit) s = _
    rw [Typer.isRigid, flexible, List.any_nil, free]
    rfl
  show unifyWithin (s.typer.depthFor _ _) _ _ s = _
  rw [positive, unifyWithin, unifyStep, if_neg (Ne.symm (notUse v)), unifyVar_apply, unbound]
  show learn v t s = _
  rw [learns]
  show EStateM.bind (permit v t) (fun _ => bindTo v t) s = _
  unfold EStateM.bind
  rw [permits]

end Typing

private theorem coerce_unbound (instances : Instances) {value : Value} {v : TypeVar} {s : Session}
    (flexible : s.typer.rigid = []) (unbound : s.typer.classes.bound? v = none)
    (notUse : ∀ w, value.type ≠ .use w) (free : s.typer.classes.occurs v value.type = false)
    (name : String) :
    ∃ s', coerce instances value (.use v) name s = .ok value s' ∧
      s'.typer = { s.typer with classes := s.typer.classes.set v (some value.type) } := by
  have unified : Typing.unify (.use v) value.type s.trial = Typing.bindTo v value.type s.trial :=
    Typing.unify_unbound flexible unbound notUse free
  unfold coerce
  rw [unified]
  exact ⟨_, rfl, rfl⟩

namespace Standard

/-- The pairing function under a number of its own. -/
def pairing (id : Nat) : Function where
  id := id
  name := "pair"
  typeParams := typeParams "AB"
  params := [.required "first" A, .required "second" B]
  result := pairOf A B
  implicits := []
  body := .pair

def firstName : TypeVar := numbered .unification 1
def secondName : TypeVar := numbered .unification 2

end Standard

open Standard (pairing firstName secondName pairOf)

section Checking

variable {value value' : Value}

abbrev pairArguments (value value' : Value) : Bound :=
  [(.required "first" Standard.A, some value), (.required "second" Standard.B, some value')]

/-- Neither type has one of the two names free. -/
def Apart (t u : Term) : Prop :=
  ∀ v ∈ t.freeVars ++ u.freeVars, v ≠ firstName ∧ v ≠ secondName

/-- Neither type has the name of its own parameter free, and at most one that of the other's. -/
def Untangled (t u : Term) : Prop :=
  firstName ∉ t.freeVars ∧ secondName ∉ u.freeVars ∧
    (secondName ∉ t.freeVars ∨ firstName ∉ u.freeVars)

instance (t u : Term) : Decidable (Apart t u) :=
  inferInstanceAs (Decidable (∀ v ∈ t.freeVars ++ u.freeVars, v ≠ firstName ∧ v ≠ secondName))

def pairFilling (t u : Term) (v : TypeVar) : Term :=
  if v = firstName then t else if v = secondName then u else .use v

/-- The type of a pair, with the names in it filled. -/
def pairedType (t u : Term) : Term :=
  pairOf (t.fill (pairFilling t u)) (u.fill (pairFilling t u))

theorem Apart.untangled {t u : Term} (apart : Apart t u) : Untangled t u :=
  ⟨fun free => (apart _ (List.mem_append_left _ free)).1 rfl,
    fun free => (apart _ (List.mem_append_right _ free)).2 rfl,
    .inl fun free => (apart _ (List.mem_append_left _ free)).2 rfl⟩

private theorem pairFilling_of_ne {t u : Term} {v : TypeVar} (notFirst : v ≠ firstName)
    (notSecond : v ≠ secondName) : pairFilling t u v = .use v := by
  rw [pairFilling, if_neg notFirst, if_neg notSecond]

abbrev pairClasses (t u : Term) : Classes :=
  (Classes.empty.set firstName (some t)).set secondName (some u)

section Known

variable {t u : Term} (notUse : ∀ w, t ≠ .use w) (notUse' : ∀ w, u ≠ .use w)
  (untangled : Untangled t u)

private theorem bound?_firstClasses (t : Term) (x : TypeVar) :
    (Classes.empty.set firstName (some t)).bound? x = if x = firstName then some t else none := by
  obtain ⟨-, -, bounds, -⟩ := Classes.set_spec Classes.tidy_empty firstName (some t)
  rw [bounds, Classes.bound?_empty]
  simp only [Classes.same_empty]

include untangled in
private theorem not_leadsTo_first : ∀ y ∈ t.freeVars, ¬LeadsTo .empty y firstName := by
  intro y free leads
  have here := Classes.same_empty.mp (leads.same_of_unbound (Classes.bound?_empty y))
  exact untangled.1 (here ▸ free)

include notUse untangled in
private theorem sane_firstClasses :
    Problem.Sane (fun _ => True) (Classes.empty.set firstName (some t)) :=
  (Problem.sane_empty _).set trivial trivial notUse (not_leadsTo_first untangled)

private theorem eq_of_leadsTo_firstClasses {x y : TypeVar} (other : x ≠ firstName)
    (leads : LeadsTo (Classes.empty.set firstName (some t)) x y) : x = y := by
  obtain ⟨-, same, -, -⟩ := Classes.set_spec Classes.tidy_empty firstName (some t)
  have here := leads.same_of_unbound (by rw [bound?_firstClasses, if_neg other])
  exact Classes.same_empty.mp (same x y ▸ here)

include untangled in
private theorem not_leadsTo_second :
    ∀ y ∈ u.freeVars, ¬LeadsTo (Classes.empty.set firstName (some t)) y secondName := by
  obtain ⟨noFirst, noSecond, crossed⟩ := untangled
  intro y free leads
  by_cases first : y = firstName
  · subst first
    cases leads with
    | same here =>
      obtain ⟨-, same, -, -⟩ := Classes.set_spec Classes.tidy_empty firstName (some t)
      rw [same, Classes.same_empty] at here
      exact absurd here (by decide)
    | through bound inside onward =>
      rw [bound?_firstClasses, if_pos rfl] at bound
      cases bound
      have end_ := eq_of_leadsTo_firstClasses (fun same => noFirst (same ▸ inside)) onward
      exact crossed.elim (fun absent => absent (end_ ▸ inside)) (fun absent => absent free)
  · exact noSecond (eq_of_leadsTo_firstClasses first leads ▸ free)

include notUse notUse' untangled in
private theorem sane_pairClasses : Problem.Sane (fun _ => True) (pairClasses t u) :=
  (sane_firstClasses notUse untangled).set trivial trivial notUse' (not_leadsTo_second untangled)

include notUse untangled in
private theorem bound?_pairClasses (x : TypeVar) : (pairClasses t u).bound? x =
    if x = secondName then some u else if x = firstName then some t else none := by
  obtain ⟨-, same, -, -⟩ := Classes.set_spec Classes.tidy_empty firstName (some t)
  obtain ⟨-, -, bounds, -⟩ :=
    Classes.set_spec (sane_firstClasses notUse untangled).tidy secondName (some u)
  rw [bounds, bound?_firstClasses]
  simp only [same, Classes.same_empty]

include notUse notUse' untangled in
private theorem reading_names :
    (pairClasses t u).reading firstName = t.fill (pairClasses t u).reading ∧
      (pairClasses t u).reading secondName = u.fill (pairClasses t u).reading := by
  have sane := sane_pairClasses notUse notUse' untangled
  have bounds := bound?_pairClasses (u := u) notUse untangled
  refine ⟨Classes.reading_of_bound sane.tidy sane.acyclic ?_,
    Classes.reading_of_bound sane.tidy sane.acyclic ?_⟩
  · rw [bounds, if_neg (by decide), if_pos rfl]
  · rw [bounds, if_pos rfl]

include notUse untangled in
private theorem fill_reading_eq_self {w : Term} (normal : w.Normal)
    (absent : ∀ v ∈ w.freeVars, v ≠ firstName ∧ v ≠ secondName) :
    w.fill (pairClasses t u).reading = w := by
  refine normal.replace_eq fun v free _ => Classes.reading_of_unbound ?_
  obtain ⟨notFirst, notSecond⟩ := absent v free
  rw [bound?_pairClasses notUse untangled, if_neg notSecond, if_neg notFirst]

include notUse notUse' untangled in
private theorem reading_eq_pairFilling (normal : t.Normal) (normal' : u.Normal) {v : TypeVar}
    (free : v ∈ t.freeVars ++ u.freeVars) :
    (pairClasses t u).reading v = pairFilling t u v := by
  have noFirst := untangled.1
  have noSecond := untangled.2.1
  have crossed := untangled.2.2
  obtain ⟨first, second⟩ := reading_names notUse notUse' untangled
  have absent {w : Term} (noFirst : firstName ∉ w.freeVars) (noSecond : secondName ∉ w.freeVars) :
      ∀ v ∈ w.freeVars, v ≠ firstName ∧ v ≠ secondName := fun v free =>
    ⟨fun same => noFirst (same ▸ free), fun same => noSecond (same ▸ free)⟩
  rw [List.mem_append] at free
  by_cases isFirst : v = firstName
  · subst isFirst
    have noCross : secondName ∉ t.freeVars :=
      crossed.resolve_right fun absent => absent (free.resolve_left noFirst)
    rw [first, fill_reading_eq_self notUse untangled normal (absent noFirst noCross)]
    rfl
  · by_cases isSecond : v = secondName
    · subst isSecond
      have noCross : firstName ∉ u.freeVars :=
        crossed.resolve_left fun absent => absent (free.resolve_right noSecond)
      rw [second, fill_reading_eq_self notUse untangled normal' (absent noCross noSecond)]
      rfl
    · rw [pairFilling_of_ne isFirst isSecond]
      refine Classes.reading_of_unbound ?_
      rw [bound?_pairClasses notUse untangled, if_neg isSecond, if_neg isFirst]

include notUse notUse' untangled in
private theorem read_pair (normal : t.Normal) (normal' : u.Normal) :
    (pairClasses t u).read (pairOf (.use firstName) (.use secondName)) = pairedType t u := by
  have filling {v : TypeVar} :=
    reading_eq_pairFilling (v := v) notUse notUse' untangled normal normal'
  obtain ⟨first, second⟩ := reading_names notUse notUse' untangled
  rw [Term.fill_congr fun v free => filling (List.mem_append_left _ free)] at first
  rw [Term.fill_congr fun v free => filling (List.mem_append_right _ free)] at second
  rw [Classes.read_eq_fill, pairOf, Term.fill_con_of_ne _ (by decide), List.map_cons, List.map_cons,
    List.map_nil, Term.fill_use, Term.fill_use, first, second]
  rfl

theorem Apart.pairedType_eq (apart : Apart t u) (normal : t.Normal) (normal' : u.Normal) :
    pairedType t u = pairOf t u := by
  have kept : ∀ v ∈ t.freeVars ++ u.freeVars, pairFilling t u v = .use v := fun v free =>
    pairFilling_of_ne (apart v free).1 (apart v free).2
  have first : t.fill (pairFilling t u) = t :=
    normal.replace_eq fun v free _ => kept v (List.mem_append_left _ free)
  have second : u.fill (pairFilling t u) = u :=
    normal'.replace_eq fun v free _ => kept v (List.mem_append_right _ free)
  rw [pairedType, first, second]

end Known

private theorem coerceArguments_two {instances : Instances} {γ : Term.Mapping} {p q : Param}
    {result result' : Value} {s s₁ s₂ : Session}
    (first : coerce instances value (p.type.subst γ) p.name s = .ok result s₁)
    (second : coerce instances value' (q.type.subst γ) q.name s₁ = .ok result' s₂) :
    coerceArguments instances γ [(p, some value), (q, some value')] s =
      .ok [(p, some result), (q, some result')] s₂ := by
  simp [coerceArguments, List.mapM_cons, bind, EStateM.bind, first, second, pure, EStateM.pure]

private theorem coerceArguments_pair (instances : Instances) (id : Nat)
    (notUse : ∀ w, value.type ≠ .use w) (notUse' : ∀ w, value'.type ≠ .use w)
    (untangled : Untangled value.type value'.type) (report : Report) :
    ∃ s, coerceArguments instances (pairing id).opened.1 (pairArguments value value')
        (.start (pairing id).opened.2 report) = .ok (pairArguments value value') s ∧
      s.typer = ⟨pairClasses value.type value'.type, [], 2⟩ := by
  let start := Session.start (pairing id).opened.2 report
  have occurs {s : Classes} {v : TypeVar} {t : Term} (tidy : Classes.Tidy s)
      (acyclic : Classes.Acyclic s) (apart : ∀ y ∈ t.freeVars, ¬LeadsTo s y v) :
      s.occurs v t = false := by
    refine Bool.eq_false_iff.mpr fun occurs => ?_
    obtain ⟨y, free, leads⟩ := (Classes.occurs_iff tidy acyclic v t).mp occurs
    exact apart y free leads
  have tidy := Classes.tidy_empty
  have acyclic := Classes.acyclic_empty
  have apart := not_leadsTo_first untangled
  obtain ⟨s₁, first, typer₁⟩ := coerce_unbound instances (s := start) rfl
    (Classes.bound?_empty firstName) notUse (occurs tidy acyclic apart) "first"
  have classes₁ : s₁.typer.classes = Classes.empty.set firstName (some value.type) := by
    rw [typer₁]
    rfl
  have unbound : s₁.typer.classes.bound? secondName = none := by
    rw [classes₁, bound?_firstClasses]
    exact if_neg (by decide)
  obtain ⟨s₂, second, typer₂⟩ := coerce_unbound instances (s := s₁)
    (by rw [typer₁]; rfl) unbound notUse'
    (classes₁ ▸ occurs (Classes.set_spec tidy _ _).1 (.set tidy acyclic apart)
      (not_leadsTo_second untangled)) "second"
  refine ⟨s₂, coerceArguments_two first second, ?_⟩
  rw [typer₂, typer₁]
  rfl

end Checking

section Calls

variable {instances : Instances} {evaluate : Evaluate} {id scope : Nat} {value value' : Value}

private theorem callChecked_pair (notUse : ∀ w, value.type ≠ .use w)
    (notUse' : ∀ w, value'.type ≠ .use w) (normal : value.type.Normal) (normal' : value'.type.Normal)
    (untangled : Untangled value.type value'.type) (store : Store) :
    ∃ report, callChecked instances evaluate (pairing id) (pairArguments value value') scope store =
      .ok ⟨.pair value.payload value'.payload, pairedType value.type value'.type⟩
        { store with report } := by
  obtain ⟨s, checked, typer⟩ :=
    coerceArguments_pair instances id notUse notUse' untangled store.report
  have typed : Evaluating.typing (pairing id).opened.2 (coerceArguments instances
      (pairing id).opened.1 (pairArguments value value')) store =
        .ok (pairArguments value value', s.typer) { store with report := s.report } := by
    rw [Evaluating.typing, checked]
  have result : s.typer.read ((pairing id).result.subst (pairing id).opened.1) =
      pairedType value.type value'.type := by
    rw [typer, ← read_pair notUse notUse' untangled normal normal']
    rfl
  have done : checkCall instances (pairing id) (pairArguments value value') store =
      .ok ((pairArguments value value', s.typer), (s.typer, []))
        { store with report := s.report } := by
    unfold checkCall
    show EStateM.bind (Evaluating.typing (pairing id).opened.2 (coerceArguments instances
      (pairing id).opened.1 (pairArguments value value'))) _ store = _
    unfold EStateM.bind
    rw [typed]
    rfl
  refine ⟨s.report, ?_⟩
  rw [← result]
  unfold callChecked
  show EStateM.bind (checkCall instances (pairing id) (pairArguments value value')) _ store = _
  unfold EStateM.bind
  rw [done]
  rfl

private theorem call_of_callChecked {fn : Function} {args : Bound} {result : Value}
    (checks : ∀ store, ∃ report, callChecked instances evaluate fn args scope store =
      .ok result { store with report }) (store : Store) :
    ∃ report, call instances evaluate fn args scope store = .ok result { store with report } := by
  let told : Store := { store with report := store.report.tell fun _ => ["call", fn.name] }
  obtain ⟨report, ran⟩ := checks { told with report := told.report.nest }
  have nested : Evaluating.nested (callChecked instances evaluate fn args scope) told =
      .ok result { store with report := report.unnest } := by
    rw [Evaluating.nested, ran]
  unfold call
  show ∃ report, EStateM.bind (Evaluating.nested (callChecked instances evaluate fn args scope)) _
    told = _
  unfold EStateM.bind
  rw [nested]
  exact ⟨_, rfl⟩

private theorem exists_coerceArguments_of_call {fn : Function} {args : Bound} {result : Value}
    {store final : Store}
    (called : call instances evaluate fn args scope store = .ok result final) :
    ∃ report checked s, coerceArguments instances fn.opened.1 (checkable fn args)
      (.start fn.opened.2 report) = .ok checked s := by
  obtain ⟨-, told, -, called⟩ := bind_eq_ok called
  obtain ⟨value, mid, nested, -⟩ := bind_eq_ok called
  unfold Evaluating.nested at nested
  split at nested
  · next value' inner ran =>
    obtain ⟨done, after, check, -⟩ := bind_eq_ok ran
    obtain ⟨checked, typed, checks, -⟩ := bind_eq_ok check
    unfold Evaluating.typing at checks
    split at checks
    · next coerced s accepted => exact ⟨_, coerced, s, accepted⟩
    · cases checks
  · cases nested

end Calls

/-- A type has the name of its own parameter inside, or each has the name of the other's. -/
def Confused (t u : Term) : Prop :=
  t.Nests firstName ∨ u.Nests secondName ∨ t.Nests secondName ∧ u.Nests firstName

private theorem coerceArguments_ne_ok_of_confused (unions : Bool) (id : Nat) {value value' : Value}
    (free : value.type.SchemeFree) (free' : value'.type.SchemeFree)
    (confused : Confused value.type value'.type) (report : Report) (checked : Bound) (s : Session) :
    coerceArguments (Standard.instances unions) (pairing id).opened.1 (pairArguments value value')
      (.start (pairing id).opened.2 report) ≠ .ok checked s := by
  intro accepted
  let start := Session.start (pairing id).opened.2 report
  have sound : start.typer.Sound .senses := Problem.sane_empty _
  have terms : ∀ arg ∈ pairArguments value value',
      (arg.1.type.subst (pairing id).opened.1).SchemeFree ∧
        ∀ given ∈ arg.2, given.type.SchemeFree := by
    refine List.forall_mem_cons.mpr ⟨⟨trivial, ?_⟩, List.forall_mem_singleton.mpr ⟨trivial, ?_⟩⟩
    · rintro _ ⟨⟩
      exact free
    · rintro _ ⟨⟩
      exact free'
  have keeps := keeps_coerceArguments_bulk unions (pairing id).opened.1 terms (s := start) sound
  rw [accepted] at keeps
  obtain ⟨learned, bulk⟩ := keeps.success
  have sane := learned.sound sound
  let θ := s.typer.classes.emptied
  have le := bulk θ (Classes.models_emptied sane.tidy sane.acyclic)
  have first : (value.type.sense θ).bulk ≤ (θ firstName).bulk := le _ (List.mem_cons_self ..) _ rfl
  have second : (value'.type.sense θ).bulk ≤ (θ secondName).bulk :=
    le _ (List.mem_cons_of_mem _ (List.mem_cons_self ..)) _ rfl
  rcases confused with nests | nests | ⟨nests, nests'⟩
  · exact absurd first (Nat.not_le.mpr nests.bulk_lt)
  · exact absurd second (Nat.not_le.mpr nests.bulk_lt)
  · have one : (θ secondName).bulk < (value.type.sense θ).bulk := nests.bulk_lt
    have two : (θ firstName).bulk < (value'.type.sense θ).bulk := nests'.bulk_lt
    omega

private theorem Value.Good.type_ne_use {value : Value} (good : value.Good) (w : TypeVar) :
    value.type ≠ .use w := by
  intro isOpen
  have belongs := good.belongs
  rw [isOpen, Classes.emptySense, Term.sense_use] at belongs
  exact Payload.not_belongs_nothing belongs

section Neat

variable {unions : Bool} {evaluate : Evaluate} {value value' : Value} (neat : value.Neat)
  (neat' : value'.Neat) (id scope : Nat) (store : Store)

include neat neat' in
theorem call_pair_of_untangled (untangled : Untangled value.type value'.type) :
    ∃ report, call (Standard.instances unions) evaluate (pairing id) (pairArguments value value')
      scope store =
        .ok ⟨.pair value.payload value'.payload, pairedType value.type value'.type⟩
          { store with report } :=
  call_of_callChecked (callChecked_pair neat.good.type_ne_use neat'.good.type_ne_use
    neat.type neat'.type untangled) store

include neat neat' in
theorem call_pair_fails_of_confused (confused : Confused value.type value'.type) :
    ∃ failure final, call (Standard.instances unions) evaluate (pairing id)
      (pairArguments value value') scope store = .error failure final := by
  cases called : call (Standard.instances unions) evaluate (pairing id)
      (pairArguments value value') scope store with
  | error failure final => exact ⟨failure, final, rfl⟩
  | ok result final =>
    obtain ⟨report, checked, s, accepted⟩ := exists_coerceArguments_of_call called
    exact absurd accepted (coerceArguments_ne_ok_of_confused unions id neat.good.free
      neat'.good.free confused report checked s)

end Neat

end TypedCalls
