import TypedCalls.Proofs.Eval.Coercion
import TypedCalls.Proofs.Eval.Safety
import TypedCalls.Standard.Names

/-!
The functions that a program can come by: the standard ones, and those it defines, which have names
for types. The values that every program starts with are good, at types with any property that is
`Persistent`, and what the standard bodies make of payloads that belong to the parameters belongs to
the result.
-/

set_option autoImplicit false

namespace TypedCalls

open Classes (emptySense)

def Term.IsNamed (t : Term) : Prop := ∃ head, t = .named head

/-- A function as a program defines it. -/
structure Function.Defined (fn : Function) : Prop where
  typeParams : fn.typeParams = []
  implicits : fn.implicits = []
  params : ∀ param ∈ fn.params, param.arity = .required ∧ param.type.IsNamed
  result : fn.result.IsNamed
  body : ∃ home code, fn.body = .closure home code

/-- The function is a standard one under any number, or one that a program defines. -/
inductive Function.Known : Function → Prop
  | standard {fn : Function} (member : fn ∈ Standard.functions) (id : Nat) :
      Known { fn with id := id }
  | defined {fn : Function} (defined : fn.Defined) : Known fn

abbrev Payload.Fits : Payload → Term → Prop := Payload.Belongs Function.Known Term.IsNamed

abbrev Value.Good : Value → Prop := Value.Sound Function.Known Term.IsNamed

theorem Term.IsNamed.schemeFree {t : Term} (named : t.IsNamed) : t.SchemeFree := by
  obtain ⟨head, rfl⟩ := named
  exact True.intro

theorem Term.IsNamed.sense {t : Term} (named : t.IsNamed) (θ : TypeVar → Term) : t.sense θ = t := by
  obtain ⟨head, rfl⟩ := named
  exact Term.sense_named θ head

private theorem Value.good_named {payload : Payload} {head : String}
    (fits : payload.Fits (.named head)) : Value.Good ⟨payload, .named head⟩ := by
  refine ⟨?_, True.intro⟩
  rw [emptySense, Term.sense_named]
  exact fits

private theorem isNamed_of_mem_typeNames {entry : String × Term}
    (member : entry ∈ Standard.typeNames) : entry.2.IsNamed := by
  have shape : ∀ entry ∈ Standard.typeNames, entry.2 = .named (entry.2.head?.getD "") := by decide
  exact ⟨_, shape entry member⟩

namespace Function

/-- What holds of the signatures of all known functions. No parameter can go without a value. -/
structure Regular (fn : Function) : Prop where
  given : ∀ v ∈ fn.typeParams, ¬v.MadeUp
  params : ∀ param ∈ fn.params, param.type.SchemeFree
  result : fn.result.SchemeFree
  implicits : ∀ goal ∈ fn.implicits, goal.SchemeFree
  needed : ∀ param ∈ fn.params, param.arity.isVariadic = true ∨ 0 < param.arity.minimum

variable {fn : Function}

private theorem regular_of_mem_functions (member : fn ∈ Standard.functions) : fn.Regular := by
  have outside : ∀ family, ∀ fn ∈ Standard.functions, ∀ v ∈ fn.typeParams,
      v.belongsTo family = false := by
    intro family
    cases family <;> decide +kernel
  have signatures : ∀ fn ∈ Standard.functions, (∀ param ∈ fn.params, param.type.SchemeFree) ∧
      fn.result.SchemeFree ∧ (∀ goal ∈ fn.implicits, goal.SchemeFree) ∧
      ∀ param ∈ fn.params, param.arity.isVariadic = true ∨ 0 < param.arity.minimum := by
    decide +kernel
  obtain ⟨params, result, implicits, needed⟩ := signatures fn member
  exact ⟨fun v inside => TypeVar.not_madeUp_of_belongsTo fun family =>
    outside family fn member v inside, params, result, implicits, needed⟩

private theorem Defined.regular (defined : fn.Defined) : fn.Regular where
  given := by
    rw [defined.typeParams]
    exact fun v member => absurd member List.not_mem_nil
  params param member := (defined.params param member).2.schemeFree
  result := defined.result.schemeFree
  implicits := by
    rw [defined.implicits]
    exact fun goal member => absurd member List.not_mem_nil
  needed param member := by
    rw [(defined.params param member).1]
    exact .inr Nat.one_pos

theorem Known.regular (known : fn.Known) : fn.Regular := by
  cases known with
  | standard member id =>
    obtain ⟨given, params, result, implicits, needed⟩ := regular_of_mem_functions member
    exact ⟨given, params, result, implicits, needed⟩
  | defined defined => exact defined.regular

private theorem Known.good_toValue (known : fn.Known) : fn.toValue.Good := by
  refine ⟨?_, Term.schemeFree_func.mpr (List.forall_mem_append.mpr ⟨?_, ?_⟩)⟩
  · rw [toValue, type, emptySense, Term.sense_func]
    exact .function known
  · exact List.forall_mem_map.mpr known.regular.params
  · exact List.forall_mem_singleton.mpr known.regular.result

end Function

/-- A property of types that all types have which a program comes by: names and the types of known
functions have it, so does whatever is read, and lists have it if their elements do. -/
structure Persistent (P : Term → Prop) : Prop where
  named : ∀ head, P (.named head)
  function : ∀ {fn : Function}, fn.Known → P fn.type
  read : ∀ (s : Classes) t, P (s.read t)
  listOf : ∀ {t}, P t → P (Standard.listOf t)

theorem persistent_true : Persistent fun _ => True :=
  ⟨fun _ => trivial, fun _ => trivial, fun _ _ => trivial, fun _ => trivial⟩

/-- The value is good, and its type has a property. -/
structure Value.GoodAt (P : Term → Prop) (value : Value) : Prop where
  good : value.Good
  type : P value.type

namespace Persistent

variable {P : Term → Prop} (persistent : Persistent P)

include persistent

theorem goodAt_named {payload : Payload} {head : String} (fits : payload.Fits (.named head)) :
    Value.GoodAt P ⟨payload, .named head⟩ :=
  ⟨Value.good_named fits, persistent.named head⟩

private theorem goodAt_toValue {fn : Function} (known : fn.Known) : fn.toValue.GoodAt P :=
  ⟨known.good_toValue, persistent.function known⟩

theorem all_addFunction {store : Store} (all : store.All (Value.GoodAt P)) (id : Nat)
    {fn : Function} (known : ∀ number, Function.Known { fn with id := number }) :
    (store.addFunction id fn).All (Value.GoodAt P) :=
  all.assign id fn.name (persistent.goodAt_toValue (known store.functions))

private theorem goodAt_of_mem_constants {entry : String × Value}
    (member : entry ∈ Standard.constants) : entry.2.GoodAt P := by
  rcases List.mem_append.mp member with typed | plain
  · obtain ⟨name, inside, rfl⟩ := List.mem_map.mp typed
    exact persistent.goodAt_named (.type (isNamed_of_mem_typeNames inside))
  · simp only [List.mem_cons, List.not_mem_nil, or_false] at plain
    rcases plain with rfl | rfl | rfl
    · exact persistent.goodAt_named (.boolean true)
    · exact persistent.goodAt_named (.boolean false)
    · exact persistent.goodAt_named (.double _)

theorem all_store (report : Report) : (Standard.store report).All (Value.GoodAt P) := by
  unfold Standard.store
  refine List.foldlRecOn (motive := (Store.All (Value.GoodAt P) ·)) _ _ ?_
    fun store all entry member =>
      all.assign 0 entry.1 (persistent.goodAt_of_mem_constants member)
  refine List.foldlRecOn (motive := (Store.All (Value.GoodAt P) ·)) _ _ (Store.all_empty report)
    fun store all fn member => persistent.all_addFunction all 0 (.standard member)

end Persistent

private theorem Evidence.eq_add_of_adder {ev : Evidence}
    {add : Payload → Payload → Except ValueFault Payload} (adds : ev.adder = .ok add) :
    add = Payload.add := by
  cases ev with
  | label | cast => cases adds
  | group | monoid => exact (Except.ok.inj adds).symm

theorem fits_runSum {a b result : Payload} {s t r : Term} {evidence : List Evidence}
    (fitsA : a.Fits s) (fitsB : b.Fits t)
    (supports : List.Forall₂ (Evidence.Supports Function.Known Term.IsNamed) evidence
      [Standard.upcast s r, Standard.upcast t r, Standard.monoid r])
    (ran : runSum a b evidence = .ok result) : result.Fits r := by
  match evidence, supports with
  | [left, right, adds], .cons one (.cons two (.cons three .nil)) =>
    change (do (← adds.adder) (← left.toCast.apply a) (← right.toCast.apply b)) = _ at ran
    obtain ⟨add, adder, ran⟩ := Except.bind_eq_ok ran
    obtain ⟨x, first, ran⟩ := Except.bind_eq_ok ran
    obtain ⟨y, second, ran⟩ := Except.bind_eq_ok ran
    rw [Evidence.eq_add_of_adder adder] at ran
    exact three.sums r (.inr rfl) x y result (one.converts s r rfl a x fitsA first)
      (two.converts t r rfl b y fitsB second) ran

variable {p result : Payload} {a b t : Term}

private theorem exists_parts_of_listOf (fits : p.Fits (Standard.listOf t)) :
    ∃ items, p.parts = .ok items ∧ ∀ item ∈ items, item.Fits t := by
  obtain ⟨items, rfl, all⟩ := fits.of_listOf
  exact ⟨items, rfl, all⟩

theorem fits_list (fits : p.Fits (Standard.listOf t)) (ran : p.parts.map .list = .ok result) :
    result.Fits (Standard.listOf t) := by
  obtain ⟨items, parts, all⟩ := exists_parts_of_listOf fits
  rw [parts] at ran
  cases ran
  exact .list all

theorem fits_map (fits : p.Fits (Standard.listOf (Standard.pairOf a b)))
    (ran : (do Payload.ofPairs (← p.parts)) = .ok result) : result.Fits (Standard.mapOf a b) := by
  obtain ⟨items, parts, all⟩ := exists_parts_of_listOf fits
  rw [parts] at ran
  exact Payload.belongs_ofPairs all ran

theorem fits_set (fits : p.Fits (Standard.listOf t))
    (ran : (do Payload.ofElements (← p.parts)) = .ok result) :
    result.Fits (Standard.setOf t) := by
  obtain ⟨items, parts, all⟩ := exists_parts_of_listOf fits
  rw [parts] at ran
  exact Payload.belongs_ofElements all ran

end TypedCalls
