import TypedCalls.Proofs.Call.Success
import TypedCalls.Proofs.Standard.Functions

/-!
Type soundness of evaluation.

Each body returns what belongs to the declared result, in the sense in which nothing belongs to a
variable left open (`returns_of_known`). So a call with good values returns a good value
(`safe_callChecked`), and by induction on the depth so does every expression
(`safe_evaluateWithin`). Good values inhabit their types (`evaluation_inhabits`).
-/

set_option autoImplicit false

namespace TypedCalls

open Classes (Models emptySense)
open Typer (Learned)
open Evaluating (Safe safe_pure safe_throw safe_modify safe_modifyGet safe_mapM safe_forM safe_tell
  safe_payload)

def Evaluate.Safe (P : Term → Prop) (evaluate : Evaluate) : Prop :=
  ∀ e scope, Evaluating.Safe (Value.GoodAt P) (evaluate e scope) (Value.GoodAt P)

/-! The types of what coercion and lifting return. -/

namespace Persistent

variable {P : Term → Prop} (persistent : Persistent P) {instances : Instances}

include persistent

private theorem type_coerce {value result : Value} (type : P value.type) {expected : Term}
    {name : String}
    {s s' : Session} (ran : coerce instances value expected name s = .ok result s') :
    P result.type := by
  unfold coerce at ran
  split at ran
  · cases ran
    exact type
  · cases ran
  · obtain ⟨cast, s₁, -, converted⟩ := bind_eq_ok ran
    unfold convert at converted
    cases applied : cast.apply value.payload with
    | ok payload =>
      simp only [applied] at converted
      cases converted
      exact persistent.read _ _
    | error fault =>
      simp only [applied] at converted
      cases converted

private theorem type_coerceArguments {args checked : Bound}
    (types : ∀ arg ∈ args, ∀ value ∈ arg.2, P value.type) {γ : Term.Mapping} {s s' : Session}
    (ran : coerceArguments instances γ args s = .ok checked s') :
    ∀ arg ∈ checked, ∀ value ∈ arg.2, P value.type := by
  refine forall_mem_of_forall₂ (forall₂_of_mapM ran) ?_
  rintro ⟨param, given⟩ member arg ⟨t, t', one⟩ value here
  cases given with
  | none =>
    cases one
    cases here
  | some before =>
    obtain ⟨result, mid, coerced, made⟩ := bind_eq_ok one
    cases made
    cases here
    exact persistent.type_coerce (types _ member before rfl) coerced

private theorem type_liftList {values : List Value} (types : ∀ value ∈ values, P value.type)
    {value : Value} {report report' : Report}
    (lifted : liftList instances values report = .ok value report') : P value.type := by
  unfold liftList at lifted
  split at lifted
  · cases lifted
    exact persistent.listOf (persistent.named _)
  · next first rest =>
    split at lifted
    · cases lifted
      exact persistent.listOf (types first (List.mem_cons_self ..))
    · obtain ⟨found, r, -, made⟩ := bind_eq_ok lifted
      cases applied : applyAll (found.2.map Evidence.toCast) (first :: rest) with
      | ok payloads =>
        rw [applied] at made
        cases made
        exact persistent.listOf (persistent.read _ _)
      | error fault =>
        rw [applied] at made
        cases made

end Persistent

section Steps

variable {P : Term → Prop} {evaluate : Evaluate} {scope : Nat}

/-! Definitions. -/

def Payload.IsType (p : Payload) : Prop := ∃ t : Term, p = .type t ∧ t.IsNamed

private theorem safe_typeNamed (safe : evaluate.Safe P) (code : Expr) :
    Safe (Value.GoodAt P) (typeNamed evaluate scope code) Payload.IsType := by
  refine (safe code scope).bind fun value good => ?_
  by_cases other : value.type ≠ Standard.type
  · rw [if_pos other]
    exact safe_throw _
  · rw [if_neg other]
    have belongs := good.good.belongs
    rw [not_not.mp other, emptySense, Standard.type, Term.sense_named] at belongs
    exact safe_pure belongs.of_type

private theorem safe_declared (safe : evaluate.Safe P) (function : String) (form : Expr) :
    Safe (Value.GoodAt P) (declared evaluate scope function form) fun entry => entry.2.IsType := by
  unfold declared
  split
  · next name code => exact (safe_typeNamed safe code).bind fun p isType => safe_pure isType
  · exact safe_throw _

private theorem definedBody_of_isType {code : Expr} {declarations : List Payload}
    (types : ∀ p ∈ declarations, p.IsType) :
    definedBody scope code declarations = .closure scope code := by
  have none : (declarations.zipIdx.find? fun entry => (typeOf? entry.1).isNone) = none := by
    refine List.find?_eq_none.mpr fun entry member => ?_
    obtain ⟨t, isType, -⟩ := types entry.1 (List.fst_mem_of_mem_zipIdx member)
    simp [isType, typeOf?]
  rw [definedBody, none]

private theorem isNamed_typeOf? {p : Payload} (isType : p.IsType) :
    ((typeOf? p).getD Standard.nothing).IsNamed := by
  obtain ⟨t, rfl, named⟩ := isType
  exact named

private theorem safe_defineFunction (persistent : Persistent P) (safe : evaluate.Safe P)
    (name : String) (forms : List Expr) (result code : Expr) :
    Safe (Value.GoodAt P) (defineFunction evaluate scope name forms result code) fun _ => True := by
  refine (safe_mapM fun form _ => safe_declared safe name form).bind fun params declared => ?_
  refine (safe_typeNamed safe result).bind fun resultType isType => ?_
  have types : ∀ entry ∈ params, entry.2.IsType :=
    forall_mem_of_forall₂ declared fun _ _ _ here => here
  have declarations : ∀ p ∈ params.map Prod.snd ++ [resultType], p.IsType :=
    List.forall_mem_append.mpr ⟨List.forall_mem_map.mpr types, List.forall_mem_singleton.mpr isType⟩
  dsimp only
  split
  · exact safe_throw _
  · refine (safe_payload (P := fun _ => True) fun _ => trivial).bind fun _ _ => ?_
    refine safe_modify fun store all =>
      persistent.all_addFunction all scope fun number => .defined ?_
    refine ⟨rfl, rfl, List.forall_mem_map.mpr fun entry member => ⟨rfl, ?_⟩,
      isNamed_typeOf? isType, scope, code, definedBody_of_isType declarations⟩
    exact isNamed_typeOf? (types entry member)

private theorem safe_define (persistent : Persistent P) (safe : evaluate.Safe P)
    (head code : Expr) : Safe (Value.GoodAt P) (define evaluate scope head code) fun _ => True := by
  unfold define
  split
  · next name =>
    split
    · exact safe_throw _
    · refine (safe code scope).bind fun value good => ?_
      exact safe_modify fun store all => all.assign scope name good
  · exact safe_defineFunction persistent safe _ _ _ code
  · exact safe_throw _

/-! Bodies. -/

private theorem safe_codeOf (p : Payload) : Safe (Value.GoodAt P) (codeOf p) fun _ => True := by
  unfold codeOf
  split
  · exact safe_pure trivial
  · exact safe_throw _

variable {instances : Instances}

section

variable {R : Param → Value → Prop} {args : Bound} {param other : Param}

private theorem Bound.Supplies.one (supplies : args.Supplies R [param]) :
    ∃ value, args = [(param, some value)] ∧ R param value := by
  cases supplies with
  | cons here none =>
    obtain ⟨value, rfl, holds⟩ := here
    cases none
    exact ⟨value, rfl, holds⟩

private theorem Bound.Supplies.each {params : List Param} {Q : Value → Prop}
    (supplies : args.Supplies R params) (weaker : ∀ {param value}, R param value → Q value) :
    ∀ arg ∈ args, ∀ value ∈ arg.2, Q value := by
  refine forall_mem_of_forall₂ supplies ?_
  rintro param - arg ⟨value, rfl, holds⟩ other supplied
  cases supplied
  exact weaker holds

private theorem Bound.Supplies.two (supplies : args.Supplies R [param, other]) :
    ∃ value value', args = [(param, some value), (other, some value')] ∧
      R param value ∧ R other value' := by
  cases supplies with
  | cons here there =>
    obtain ⟨value, rfl, holds⟩ := here
    obtain ⟨value', rfl, holds'⟩ := Bound.Supplies.one there
    exact ⟨value, value', rfl, holds, holds'⟩

end

abbrev Suits (P : Term → Prop) (τ : TypeVar → Term) (param : Param) (value : Value) : Prop :=
  value.GoodAt P ∧ value.payload.Fits (param.type.sense τ)

/-- The body of a function returns what belongs to the result, if it is given what belongs to the
parameters and evidence for the implicits. -/
def Function.Returns (P : Term → Prop) (instances : Instances) (evaluate : Evaluate)
    (fn : Function) : Prop :=
  ∀ τ scope args evidence, Bound.Supplies (Suits P τ) fn.params args →
    List.Forall₂ (Evidence.Supports Function.Known Term.IsNamed) evidence
      (fn.implicits.map (Term.sense τ)) →
    Safe (Value.GoodAt P) (runBody instances evaluate fn scope args evidence) fun p =>
      p.Fits (fn.result.sense τ)

private theorem returns_of_mem_functions (persistent : Persistent P) (safe : evaluate.Safe P)
    {fn : Function} (member : fn ∈ Standard.functions) (id : Nat) :
    Function.Returns P instances evaluate { fn with id := id } := by
  intro τ scope args evidence supplies supports
  simp only [Standard.functions, List.mem_cons, List.not_mem_nil, or_false] at member
  rcases member with rfl | rfl | rfl | rfl | rfl | rfl | rfl
  · obtain ⟨a, b, rfl, ⟨-, fitsA⟩, -, fitsB⟩ := supplies.two
    refine safe_payload fun ran => fits_runSum fitsA fitsB ?_ ran
    simpa [Standard.function, Param.required, Standard.sense_upcast, Standard.sense_monoid]
      using supports
  · obtain ⟨items, rfl, -, fits⟩ := supplies.one
    refine safe_payload fun ran => ?_
    rw [Standard.function, Standard.sense_listOf]
    exact fits_list (Standard.sense_listOf τ ▸ fits) ran
  · obtain ⟨first, second, rfl, ⟨-, fitsFirst⟩, -, fitsSecond⟩ := supplies.two
    refine safe_pure ?_
    rw [Standard.function, Standard.sense_pairOf]
    exact .pair fitsFirst fitsSecond
  · obtain ⟨entries, rfl, -, fits⟩ := supplies.one
    refine safe_payload fun ran => ?_
    rw [Standard.function, Standard.sense_mapOf]
    rw [Standard.variadic, Standard.sense_listOf, Standard.sense_pairOf] at fits
    exact fits_map fits ran
  · obtain ⟨items, rfl, -, fits⟩ := supplies.one
    refine safe_payload fun ran => ?_
    rw [Standard.function, Standard.sense_setOf]
    exact fits_set (Standard.sense_listOf τ ▸ fits) ran
  · refine (safe_codeOf _).bind fun head _ => (safe_codeOf _).bind fun code _ => ?_
    refine (safe_define persistent safe head code).bind fun _ _ => safe_pure ?_
    rw [Standard.function, Standard.unit, Term.sense_named]
    exact .unit
  · obtain ⟨code, rfl, -, fits⟩ := supplies.one
    exact safe_pure fits

variable (trusted : instances.Trusted Function.Known Term.IsNamed)

include trusted in
private theorem safe_callClosure (safe : evaluate.Safe P) (home : Nat) (code : Expr) {result : Term}
    (named : result.IsNamed) {args : Bound} (good : ∀ arg ∈ args, ∀ value ∈ arg.2, value.GoodAt P) :
    Safe (Value.GoodAt P) (callClosure instances evaluate home code result args) fun p =>
      p.Fits result := by
  refine (safe_modifyGet fun store all => all.child home).bind fun inner _ => ?_
  refine (safe_forM fun arg member => ?_).bind fun _ _ => ?_
  · split
    · next value supplied =>
      have goodValue := good arg member value supplied
      exact safe_modify fun store all => all.assign inner arg.1.name goodValue
    · exact safe_pure trivial
  refine (safe code inner).bind fun outcome goodOutcome => ?_
  refine Safe.bind (Evaluating.safe_typing
    (Q := fun coerced => coerced.1.payload.Fits result) fun {r value s} ran => ?_)
    fun coerced fits => safe_pure fits
  have sound : (Session.start .fresh r).typer.Sound .senses := Problem.sane_empty _
  have keeps := keeps_coerce trusted goodOutcome.good named.schemeFree "result" sound
  rw [ran] at keeps
  obtain ⟨learned, accepted⟩ := keeps.success
  have sane := learned.sound sound
  have fits := accepted.belongs _ (Classes.models_emptied sane.tidy sane.acyclic)
  rwa [named.sense] at fits

include trusted in
theorem returns_of_known (persistent : Persistent P) (safe : evaluate.Safe P) {fn : Function}
    (known : fn.Known) : fn.Returns P instances evaluate := by
  cases known with
  | standard member id => exact returns_of_mem_functions persistent safe member id
  | defined defined =>
    intro τ scope args evidence supplies _
    obtain ⟨home, code, body⟩ := defined.body
    rw [runBody, body, defined.result.sense]
    exact safe_callClosure trusted safe home code defined.result (supplies.each And.left)

private theorem checkable_of_known {fn : Function} (known : fn.Known) (args : Bound) :
    checkable fn args = args := by
  cases known with
  | standard member id =>
    simp only [Standard.functions, List.mem_cons, List.not_mem_nil, or_false] at member
    rcases member with rfl | rfl | rfl | rfl | rfl | rfl | rfl <;> rfl
  | defined defined =>
    obtain ⟨home, code, body⟩ := defined.body
    rw [checkable, body]

abbrev Function.meaning (fn : Function) (s : Classes) (v : TypeVar) : Term :=
  (Typer.fresh.opening .unification fn.typeParams v).sense s.emptied

private theorem Function.Regular.sense_opened {fn : Function} (regular : fn.Regular) (s : Classes)
    (t : Term) : (t.subst fn.opened.1).sense s.emptied = t.sense (fn.meaning s) :=
  Typer.fresh.sense_subst_freshFor .unification regular.given s.emptied t

include trusted in
private theorem safe_check (persistent : Persistent P) {fn : Function} (regular : fn.Regular)
    {args : Bound} (supplies : args.Supplies (fun _ value => value.GoodAt P) fn.params) :
    Safe (Value.GoodAt P)
      (Evaluating.typing fn.opened.2 (coerceArguments instances fn.opened.1 args))
      fun checked => checked.2.Sound .senses ∧ checked.1.Supplies (fun param value =>
        value.GoodAt P ∧ value.Accepted Function.Known Term.IsNamed (param.type.subst fn.opened.1)
          checked.2.classes) fn.params := by
  refine Evaluating.safe_typing fun {r checked s} ran => ?_
  have free : ∀ param ∈ fn.params, (param.type.subst fn.opened.1).SchemeFree :=
    fun param member => Typer.fresh.schemeFree_subst _ _ (regular.params param member)
  have fresh : (Session.start fn.opened.2 r).typer.Sound .senses :=
    (Typer.learned_freshFor .senses .fresh _ _).sound (Problem.sane_empty _)
  have good : args.Supplies (fun _ value => value.Good) fn.params := by
    refine supplies.imp fun param arg suitable => ?_
    obtain ⟨value, same, here⟩ := suitable
    exact ⟨value, same, here.good⟩
  have keeps := keeps_coerceArguments trusted _ free good fresh
  rw [ran] at keeps
  obtain ⟨learned, accepted⟩ := keeps.success
  have types := persistent.type_coerceArguments (supplies.each Value.GoodAt.type) ran
  refine ⟨learned.sound fresh, ?_⟩
  refine List.forall₂_iff_zip.mpr ⟨accepted.length_eq, fun {param arg} member => ?_⟩
  obtain ⟨value, rfl, acceptedValue⟩ := (List.forall₂_iff_zip.mp accepted).2 member
  exact ⟨value, rfl, ⟨acceptedValue.sound, types _ (List.of_mem_zip member).2 value rfl⟩,
    acceptedValue⟩

include trusted in
private theorem safe_checkCall (persistent : Persistent P) {fn : Function} (known : fn.Known)
    {args : Bound} (supplies : args.Supplies (fun _ value => value.GoodAt P) fn.params) :
    Safe (Value.GoodAt P) (checkCall instances fn args) fun done =>
      done.2.1.Sound .senses ∧ done.1.1.Supplies (Suits P (fn.meaning done.2.1.classes)) fn.params ∧
        List.Forall₂ (Evidence.Supports Function.Known Term.IsNamed) done.2.2
          (fn.implicits.map (Term.sense (fn.meaning done.2.1.classes))) := by
  have regular := known.regular
  unfold checkCall
  rw [checkable_of_known known]
  refine (safe_check trusted persistent regular supplies).bind fun checked ⟨sound, accepted⟩ => ?_
  have free : ∀ goal ∈ fn.implicits.map fun goal => checked.2.read (goal.subst fn.opened.1),
      goal.SchemeFree :=
    List.forall_mem_map.mpr fun goal member => Classes.schemeFree_read sound
      (Typer.fresh.schemeFree_subst _ _ (regular.implicits goal member))
  refine (Evaluating.safe_reporting fun met => trusted.meet sound free met).bind
    fun found ⟨learned, supports⟩ => ?_
  have sane := learned.sound sound
  have models := Classes.models_emptied sane.tidy sane.acyclic
  have before := models.earlier (learned.extends sound)
  have goals : (fn.implicits.map fun goal => checked.2.read (goal.subst fn.opened.1)).map
      (Term.sense found.1.classes.emptied) =
        fn.implicits.map (Term.sense (fn.meaning found.1.classes)) := by
    rw [List.map_map]
    exact List.map_congr_left fun goal _ =>
      (before.read sound.tidy sound.acyclic _).trans (regular.sense_opened _ goal)
  refine safe_pure ⟨sane, accepted.imp fun param arg suitable => ?_, goals ▸ supports _ models⟩
  obtain ⟨value, same, good, acceptedValue⟩ := suitable
  exact ⟨value, same, good, regular.sense_opened _ _ ▸ acceptedValue.belongs _ before⟩

include trusted in
theorem safe_callChecked (persistent : Persistent P) (safe : evaluate.Safe P) {fn : Function}
    (known : fn.Known) {args : Bound}
    (supplies : args.Supplies (fun _ value => value.GoodAt P) fn.params) :
    Safe (Value.GoodAt P) (callChecked instances evaluate fn args scope) (Value.GoodAt P) := by
  have regular := known.regular
  refine (safe_checkCall trusted persistent known supplies).bind
    fun done ⟨sane, suits, evidence⟩ => ?_
  refine (returns_of_known trusted persistent safe known _ scope _ _ suits evidence).bind
    fun payload fits => safe_pure ⟨⟨?_, ?_⟩, persistent.read _ _⟩
  · rw [Typer.read, ← Classes.sense_emptied, regular.sense_opened]
    exact fits
  · exact Classes.schemeFree_read sane (Typer.fresh.schemeFree_subst _ _ regular.result)

include trusted in
private theorem safe_call (persistent : Persistent P) (safe : evaluate.Safe P) {fn : Function}
    (known : fn.Known) {args : Bound}
    (supplies : args.Supplies (fun _ value => value.GoodAt P) fn.params) :
    Safe (Value.GoodAt P) (call instances evaluate fn args scope) (Value.GoodAt P) := by
  refine (safe_tell _).bind fun _ _ => ?_
  refine (safe_callChecked trusted persistent safe known supplies).nested.bind
    fun value good => ?_
  exact (safe_tell _).bind fun _ _ => safe_pure good

/-! Evaluation. -/

private theorem safe_matchCall (fn : Function) (exprs : List Expr) :
    Safe (Value.GoodAt P) (matchCall fn exprs) fun slots =>
      ∀ param ∈ fn.params, param.arity.minimum ≤ (slots.get param.name).length := by
  unfold matchCall
  split
  · next slots matched =>
    refine safe_pure fun param member => ?_
    exact minimum_le_of_matchArguments matched (List.mem_map_of_mem member)
  · exact safe_throw _

include trusted in
private theorem safe_gather (persistent : Persistent P) {param : Param} {values : List Value}
    (good : ∀ value ∈ values, value.GoodAt P)
    (needed : param.arity.isVariadic = true ∨ 0 < values.length) :
    Safe (Value.GoodAt P)
      (if param.arity.isVariadic then do
        return (param, some (← Evaluating.reporting (liftList instances values)))
      else return (param, values.head?))
      fun arg => ∃ value, arg = (param, some value) ∧ value.GoodAt P := by
  split
  · refine (Evaluating.safe_reporting (P := Value.GoodAt P) fun lifted => ?_).bind
      fun value goodValue => safe_pure ⟨value, rfl, goodValue⟩
    exact ⟨sound_liftList trusted (fun value member => (good value member).good) lifted,
      persistent.type_liftList (fun value member => (good value member).type) lifted⟩
  · next single =>
    obtain ⟨value, rest, rfl⟩ := List.exists_cons_of_length_pos (needed.resolve_left single)
    exact safe_pure ⟨value, rfl, good value (List.mem_cons_self ..)⟩

include trusted in
private theorem safe_argument (persistent : Persistent P) (safe : evaluate.Safe P)
    {slots : Assignment Actual} {param : Param}
    (needed : param.arity.isVariadic = true ∨ 0 < (slots.get param.name).length) :
    Safe (Value.GoodAt P) (argument instances evaluate scope slots param) fun arg =>
      ∃ value, arg = (param, some value) ∧ value.GoodAt P := by
  unfold argument
  dsimp only
  by_cases quoted : param.quoted
  · rw [if_pos quoted, pure_bind]
    refine safe_gather trusted persistent (List.forall_mem_map.mpr fun e _ => ?_)
      (by simpa using needed)
    exact persistent.goodAt_named (.expr e)
  · rw [if_neg quoted]
    refine (safe_mapM (R := fun _ => Value.GoodAt P) fun e _ => safe e scope).bind
      fun values all => ?_
    refine safe_gather trusted persistent ?_ ?_
    · exact forall_mem_of_forall₂ all fun _ _ _ good => good
    · rw [← all.length_eq, List.length_map]
      exact needed

include trusted in
private theorem safe_evaluateStep (persistent : Persistent P) (safe : evaluate.Safe P) :
    Evaluate.Safe P (evaluateStep instances evaluate) := by
  intro e scope
  unfold evaluateStep
  split
  · exact safe_pure (persistent.goodAt_named (.litInt _))
  · exact safe_pure (persistent.goodAt_named (.double _))
  · exact safe_pure (persistent.goodAt_named (.rational _))
  · exact safe_pure (persistent.goodAt_named (.litString _))
  · split
    · exact safe_throw _
    · exact safe_fetch _ _
  · exact safe_throw _
  · next head rest =>
    refine (safe head scope).bind fun callee good => ?_
    split
    · next fn content =>
      have known : fn.Known := (content ▸ good.good.belongs).known_of_function
      refine (safe_matchCall fn rest).bind fun slots enough => ?_
      refine (safe_mapM fun param member => ?_).bind fun args supplies =>
        safe_call trusted persistent safe known supplies
      refine safe_argument trusted persistent safe ?_
      exact (known.regular.needed param member).imp_right fun positive =>
        Nat.lt_of_lt_of_le positive (enough param member)
    · exact safe_throw _

include trusted in
theorem safe_evaluateWithin (persistent : Persistent P) (depth : Nat) :
    Evaluate.Safe P (evaluateWithin instances depth) := by
  induction depth with
  | zero => exact fun _ _ => safe_throw _
  | succ depth ih => exact safe_evaluateStep trusted persistent ih

end Steps

/-- Evaluate expressions one after another in the outermost scope, whatever becomes of each. Returns
what became of them, and the store in the end. -/
def outcomes (instances : Instances) : List Expr → Store → List (Except EvalError Value) × Store
  | [], store => ([], store)
  | e :: es, store =>
    match evaluate instances e 0 store with
    | .ok value after =>
      let rest := outcomes instances es after
      (.ok value :: rest.1, rest.2)
    | .error failure after =>
      let rest := outcomes instances es after
      (.error failure :: rest.1, rest.2)

private theorem good_outcomes {instances : Instances}
    (trusted : instances.Trusted Function.Known Term.IsNamed) {P : Term → Prop}
    (persistent : Persistent P) (program : List Expr) {store : Store}
    (all : store.All (Value.GoodAt P)) :
    (∀ value, .ok value ∈ (outcomes instances program store).1 → value.GoodAt P) ∧
      (outcomes instances program store).2.All (Value.GoodAt P) := by
  induction program generalizing store with
  | nil => exact ⟨fun value member => absurd member List.not_mem_nil, all⟩
  | cons e es ih =>
    have landed := safe_evaluateWithin trusted persistent evaluationDepth e 0 store all
    change Evaluating.Lands (Value.GoodAt P) (Value.GoodAt P) (evaluate instances e 0 store) at landed
    rw [outcomes]
    generalize evaluate instances e 0 store = result at landed
    cases landed with
    | @ok value after good all' =>
      obtain ⟨returned, kept⟩ := ih all'
      refine ⟨fun other member => ?_, kept⟩
      rcases List.mem_cons.mp member with here | later
      · cases here
        exact good
      · exact returned other later
    | @error failure after all' =>
      obtain ⟨returned, kept⟩ := ih all'
      refine ⟨fun other member => ?_, kept⟩
      rcases List.mem_cons.mp member with here | later
      · cases here
      · exact returned other later

private theorem Value.Good.inhabits {value : Value} (good : value.Good) :
    value.payload.Inhabits value.type :=
  good.belongs.inhabits

/-- Type soundness: whatever expressions are evaluated one after another among the standard names,
and whichever of them fail, every value that is returned inhabits its type, and so does every value
that is bound in any scope. -/
theorem evaluation_inhabits (unions : Bool) (report : Report) (program : List Expr) :
    (∀ value, .ok value ∈
        (outcomes (Standard.instances unions) program (Standard.store report)).1 →
      value.payload.Inhabits value.type) ∧
    ∀ scope ∈ (outcomes (Standard.instances unions) program (Standard.store report)).2.scopes,
      ∀ entry ∈ scope.names, entry.2.payload.Inhabits entry.2.type := by
  obtain ⟨returned, bound⟩ := good_outcomes (Standard.trusted_instances unions) persistent_true
    program (persistent_true.all_store report)
  refine ⟨fun value member => (returned value member).good.inhabits,
    fun scope member entry inside => ?_⟩
  obtain ⟨id, found⟩ := Array.getElem?_of_mem member
  exact (bound id scope found entry inside).good.inhabits

/-- A program that goes on after a failure: it defines a function, and lists what the function
returns together with a number of another type. -/
def brokenStart : List Expr :=
  [.atom "nobody",
   .seq [.atom "define", .seq [.atom "same", .seq [.atom "x", .atom "Rational"], .atom "Rational"],
     .atom "x"],
   .seq [.atom "list", .seq [.atom "same", .integer 2], .integer 3]]

theorem evaluation_inhabits_brokenStart :
    ∃ value, .ok value ∈
        (outcomes (Standard.instances false) brokenStart (Standard.store .quiet)).1 ∧
      value.type = Standard.listOf Standard.rational ∧ value.payload.Inhabits value.type := by
  have types : (outcomes (Standard.instances false) brokenStart (Standard.store .quiet)).1.map
      (fun outcome => outcome.toOption.map Value.type) =
        [none, some Standard.unit, some (Standard.listOf Standard.rational)] := by
    decide +kernel
  have listed : some (Standard.listOf Standard.rational) ∈
      (outcomes (Standard.instances false) brokenStart (Standard.store .quiet)).1.map
        fun outcome => outcome.toOption.map Value.type := by
    rw [types]
    decide
  obtain ⟨outcome, member, typed⟩ := List.mem_map.mp listed
  cases outcome with
  | error failure => cases typed
  | ok value =>
    exact ⟨value, member, Option.some.inj typed,
      (evaluation_inhabits false .quiet brokenStart).1 value member⟩

end TypedCalls
