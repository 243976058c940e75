import TypedCalls.Proofs.Eval.Pairing

/-!
When a pair form is polymorphic.

Two values that are there one after the other are paired by one more evaluation
(`evaluate_pair`), so what a pair form comes to depends on the types of its parts alone. They are
paired as they are if the names that the call makes are in neither of them; and they are not paired,
although both are there, if a type has the name of its own parameter inside. An empty map is such a
value (`pair_rejects_empty_map`).
-/

set_option autoImplicit false

namespace TypedCalls

open Standard (pairing firstName secondName pairOf)

section Evaluation

variable {instances : Instances} {id depth scope : Nat} {store after after' : Store}
  {e e' : Expr} {value value' : Value}

private theorem evaluateWithin_atom (instances : Instances) (depth : Nat) {name : String}
    {value : Value} (plain : Expr.isKeyword name = false)
    (found : store.fetch? scope name = some value) :
    evaluateWithin instances (depth + 1) (.atom name) scope store = .ok value store := by
  have fetched : fetch name scope store = .ok value store := by
    have got : ∀ next : Store → Evaluating Value, (get >>= next) store = next store store :=
      fun _ => rfl
    rw [fetch, got, found]
    rfl
  rw [← fetched]
  show (if Expr.isKeyword name = true then throw (.keywordAlone name) else fetch name scope :
    Evaluating Value) store = _
  rw [plain]
  rfl

private theorem matchCall_pair (id : Nat) (plain : e.keyword? = none)
    (plain' : e'.keyword? = none) :
    matchCall (pairing id) [e, e'] = pure [("first", [⟨0, e⟩]), ("second", [⟨1, e'⟩])] := by
  have given : actuals [e, e'] = [.value ⟨0, e⟩, .value ⟨1, e'⟩] := by
    simp [actuals, List.zipIdx, plain, plain']
  rw [matchCall, given]
  rfl

private theorem argument_of_eval {slots : Assignment Actual} {name : String} {type : Term} {i : Nat}
    (slot : slots.get name = [⟨i, e⟩])
    (ran : evaluateWithin instances depth e scope store = .ok value after) :
    argument instances (evaluateWithin instances depth) scope slots (.required name type) store =
      .ok (.required name type, some value) after := by
  simp [argument, Param.required, slot, bind, EStateM.bind, ran, pure, EStateM.pure,
    Arity.isVariadic, Arity.required, List.mapM_cons]

/-- To evaluate a pair form is to evaluate both parts, and to call the pairing function. -/
theorem evaluate_pair (found : store.fetch? scope "pair" = some (pairing id).toValue)
    (plain : e.keyword? = none) (plain' : e'.keyword? = none)
    (first : evaluateWithin instances depth e scope store = .ok value after)
    (second : evaluateWithin instances depth e' scope after = .ok value' after') :
    evaluateWithin instances (depth + 1) (.seq [.atom "pair", e, e']) scope store =
      call instances (evaluateWithin instances depth) (pairing id) (pairArguments value value')
        scope after' := by
  have callee : evaluateWithin instances depth (.atom "pair") scope store =
      .ok (pairing id).toValue store := by
    cases depth with
    | zero => cases first
    | succ depth => exact evaluateWithin_atom instances depth (by decide) found
  let slots : Assignment Actual := [("first", [⟨0, e⟩]), ("second", [⟨1, e'⟩])]
  have one : argument instances (evaluateWithin instances depth) scope slots
      (.required "first" Standard.A) store = .ok (.required "first" Standard.A, some value) after :=
    argument_of_eval rfl first
  have two : argument instances (evaluateWithin instances depth) scope slots
      (.required "second" Standard.B) after =
        .ok (.required "second" Standard.B, some value') after' :=
    argument_of_eval rfl second
  have args : (pairing id).params.mapM (argument instances (evaluateWithin instances depth) scope
      slots) store = .ok (pairArguments value value') after' := by
    simp [pairing, List.mapM_cons, bind, EStateM.bind, one, two, pure, EStateM.pure]
  rw [evaluateWithin, evaluateStep]
  show EStateM.bind (evaluateWithin instances depth (.atom "pair") scope) _ store = _
  unfold EStateM.bind
  rw [callee]
  show EStateM.bind (matchCall (pairing id) [e, e']) (fun slots => do
    call instances (evaluateWithin instances depth) (pairing id)
      (← (pairing id).params.mapM (argument instances (evaluateWithin instances depth) scope slots))
      scope) store = _
  rw [matchCall_pair id plain plain']
  show EStateM.bind ((pairing id).params.mapM
    (argument instances (evaluateWithin instances depth) scope slots)) (fun args =>
      call instances (evaluateWithin instances depth) (pairing id) args scope) store = _
  unfold EStateM.bind
  rw [args]

end Evaluation

private theorem neat_of_evaluateWithin {unions : Bool} {store after : Store}
    (all : store.All Value.Neat) {depth scope : Nat} {e : Expr} {value : Value}
    (ran : evaluateWithin (Standard.instances unions) depth e scope store = .ok value after) :
    value.Neat ∧ after.All Value.Neat := by
  have landed := safe_evaluateWithin (Standard.trusted_instances unions) persistent_normal depth e
    scope store all
  rw [ran] at landed
  cases landed with
  | ok neat all => exact ⟨neat, all⟩

def Store.Roots (store : Store) (name : String) (bound : Option Value) : Prop :=
  ∃ scope, store.scopes = #[scope] ∧ scope.parent = none ∧ scope.get? name = bound

namespace Store.Roots

variable {store : Store} {name : String} {bound : Option Value}

private theorem empty (report : Report) (name : String) : (Store.empty report).Roots name none :=
  ⟨⟨none, []⟩, rfl, rfl, rfl⟩

private theorem fetch?_eq (roots : store.Roots name bound) : store.fetch? 0 name = bound := by
  obtain ⟨scope, one, outermost, rfl⟩ := roots
  simp [fetch?, chain, around, one, outermost]

private theorem assign (roots : store.Roots name bound) (other : String) (value : Value) :
    (store.assign 0 other value).Roots name (if name = other then some value else bound) := by
  obtain ⟨scope, one, outermost, rfl⟩ := roots
  refine ⟨scope.assign other value, ?_, outermost, Scope.get?_assign ..⟩
  simp [Store.assign, one, Array.modify, Array.modifyM]

private theorem addFunction (roots : store.Roots name bound) (fn : Function) :
    (store.addFunction 0 fn).Roots name (if name = fn.name then
      some ({ fn with id := store.functions } : Function).toValue else bound) :=
  roots.assign ..

end Store.Roots

private theorem Standard.fetch?_pair (report : Report) :
    (store report).fetch? 0 "pair" = some (pairing 2).toValue := by
  have first : Store.Roots (functions.foldl (fun store fn => store.addFunction 0 fn) (.empty report))
      "pair" (some (pairing 2).toValue) := by
    have start := Store.Roots.empty report "pair"
    exact ((((((start.addFunction _).addFunction _).addFunction _).addFunction _).addFunction _
      ).addFunction _).addFunction _
  refine Store.Roots.fetch?_eq (List.foldlRecOn (motive := (Store.Roots · "pair" _)) _ _ first ?_)
  intro store roots entry member
  have other : ∀ entry ∈ constants, "pair" ≠ entry.1 := by decide +kernel
  have kept := roots.assign entry.1 entry.2
  rwa [if_neg (other entry member)] at kept

def returnedType : EStateM.Result EvalError Store Value → Option Term
  | .ok value _ => some value.type
  | .error _ _ => none

private theorem exists_of_returnedType {r : EStateM.Result EvalError Store Value} {t : Term}
    (typed : returnedType r = some t) : ∃ value after, r = .ok value after ∧ value.type = t := by
  cases r with
  | ok value after => exact ⟨value, after, rfl, Option.some.inj typed⟩
  | error failure after => cases typed

/-- Any two values can be paired whose types do not have the names of the call in them, and the pair
has the pair of their types. A name in one type that was made for the place of the other is filled by
the other; and if a type has the name of its own place inside, or each that of the other's, there is
no pair. -/
theorem pair_polymorphic_unless_confused {unions : Bool} {store : Store}
    (reached : store.Reached unions) {id scope : Nat}
    (found : store.fetch? scope "pair" = some (pairing id).toValue) {e e' : Expr}
    (plain : e.keyword? = none) (plain' : e'.keyword? = none) {depth : Nat} {value value' : Value}
    {after after' : Store}
    (first : evaluateWithin (Standard.instances unions) depth e scope store = .ok value after)
    (second : evaluateWithin (Standard.instances unions) depth e' scope after = .ok value' after') :
    let paired := evaluateWithin (Standard.instances unions) (depth + 1)
      (.seq [.atom "pair", e, e']) scope store
    (Apart value.type value'.type → ∃ report, paired =
      .ok ⟨.pair value.payload value'.payload, pairOf value.type value'.type⟩
        { after' with report }) ∧
    (Untangled value.type value'.type → ∃ report, paired =
      .ok ⟨.pair value.payload value'.payload, pairedType value.type value'.type⟩
        { after' with report }) ∧
    (Confused value.type value'.type → ∃ failure final, paired = .error failure final) := by
  obtain ⟨neat, all⟩ := neat_of_evaluateWithin reached.neat first
  obtain ⟨neat', -⟩ := neat_of_evaluateWithin all second
  intro paired
  have called : paired = call (Standard.instances unions) _ (pairing id) _ scope after' :=
    evaluate_pair found plain plain' first second
  rw [called]
  refine ⟨fun apart => ?_, call_pair_of_untangled neat neat' id scope after',
    call_pair_fails_of_confused neat neat' id scope after'⟩
  rw [← apart.pairedType_eq neat.type neat'.type]
  exact call_pair_of_untangled neat neat' id scope after' apart.untangled

/-- A number and an empty list, whose type mentions no name. -/
theorem pair_polymorphic_unless_confused_list :
    ∃ value after report,
      evaluateWithin (Standard.instances false) 2 (.seq [.atom "list"]) 0 (Standard.store .quiet) =
        .ok value after ∧
      evaluateWithin (Standard.instances false) 3
        (.seq [.atom "pair", .integer 3, .seq [.atom "list"]]) 0 (Standard.store .quiet) =
          .ok ⟨.pair (.int 3) value.payload,
            pairOf Standard.litInt (Standard.listOf Standard.nothing)⟩ { after with report } := by
  obtain ⟨value, after, ran, typed⟩ : ∃ value after, evaluateWithin (Standard.instances false) 2
      (.seq [.atom "list"]) 0 (Standard.store .quiet) = .ok value after ∧
        value.type = Standard.listOf Standard.nothing := exists_of_returnedType (by decide +kernel)
  obtain ⟨pairs, -, -⟩ := pair_polymorphic_unless_confused (.standard .quiet)
    (Standard.fetch?_pair .quiet) (e := .integer 3) (by decide) (by decide) rfl ran
  rw [typed] at pairs
  obtain ⟨report, paired⟩ := pairs (by decide)
  exact ⟨value, after, report, ran, paired⟩

/-- The empty map and a number are two values, and yet they are not paired: the map is open in the
names that are put in the place of the parameters of the pair. -/
theorem pair_rejects_empty_map :
    ∃ value after failure final,
      evaluateWithin (Standard.instances false) 2 (.seq [.atom "map"]) 0 (Standard.store .quiet) =
        .ok value after ∧
      value.type = Standard.mapOf (.use firstName) (.use secondName) ∧
      evaluateWithin (Standard.instances false) 2 (.integer 1) 0 after =
        .ok ⟨.int 1, Standard.litInt⟩ after ∧
      evaluateWithin (Standard.instances false) 3
        (.seq [.atom "pair", .seq [.atom "map"], .integer 1]) 0 (Standard.store .quiet) =
          .error failure final := by
  obtain ⟨value, after, ran, typed⟩ : ∃ value after, evaluateWithin (Standard.instances false) 2
      (.seq [.atom "map"]) 0 (Standard.store .quiet) = .ok value after ∧
        value.type = Standard.mapOf (.use firstName) (.use secondName) :=
    exists_of_returnedType (by decide +kernel)
  have number : evaluateWithin (Standard.instances false) 2 (.integer 1) 0 after =
      .ok ⟨.int 1, Standard.litInt⟩ after := rfl
  obtain ⟨neat, all⟩ := neat_of_evaluateWithin (persistent_normal.all_store .quiet) ran
  obtain ⟨neat', -⟩ := neat_of_evaluateWithin all number
  have confused : Confused value.type Standard.litInt := by
    rw [typed]
    exact .inl ⟨_, _, rfl, by decide, by decide⟩
  obtain ⟨failure, final, failed⟩ := call_pair_fails_of_confused neat neat' 2 0 after confused
  refine ⟨value, after, failure, final, ran, typed, number, ?_⟩
  rw [evaluate_pair (Standard.fetch?_pair .quiet) (by decide) (by decide) ran number]
  exact failed

end TypedCalls
