import TypedCalls.Eval.Store

/-!
Evaluation. A call asks the matching which expressions go to which parameter, evaluates or quotes
them, checks them against the declared types, finds evidence for the implicits, and runs the body.

A program may call itself for ever, so `evaluate` takes the depth it may go to.
-/

set_option autoImplicit false

namespace TypedCalls

/-- The arguments of a call by parameter, in declared order; an absent one is `none`. -/
abbrev Bound := List (Param × Option Value)

namespace Bound

def get? (args : Bound) (name : String) : Option Value :=
  (args.find? fun arg => arg.1.name == name).bind Prod.snd

def payload (args : Bound) (name : String) : Payload :=
  match args.get? name with
  | some value => value.payload
  | none => .none

def given (args : Bound) (name : String) : Except ValueFault Payload :=
  if args.any fun arg => arg.1.name == name then .ok (args.payload name)
  else .error (.noArgument name)

end Bound

/-- How expressions inside of others are evaluated. -/
abbrev Evaluate := Expr → Nat → Evaluating Value

def codeOf : Payload → Evaluating Expr
  | .code e => pure e
  | p => throw (.payload (.objectWithout "Evaluator" ("visit_" ++ p.kind)))

def fetch (name : String) (scope : Nat) : Evaluating Value := do
  let store ← get
  match store.fetch? scope name with
  | some value => return value
  | none =>
    throw (.unbound name (Text.similar name (store.visibleNames scope)
      Text.similarLimit Text.similarThreshold))

def actuals (exprs : List Expr) : List (Argument Actual) :=
  exprs.zipIdx.map fun entry =>
    match entry.1.keyword? with
    | some name => .keyword name
    | none => .value ⟨entry.2, entry.1⟩

def matchCall (fn : Function) (exprs : List Expr) : Evaluating (Assignment Actual) :=
  match matchArguments (fn.params.map Param.formal) (actuals exprs) with
  | .ok slots => pure slots
  | .error e => throw (.matching e)

/-- The value for one parameter: the expressions are evaluated or quoted, and become one list if the
parameter may receive several. -/
def argument (instances : Instances) (evaluate : Evaluate) (scope : Nat)
    (slots : Assignment Actual) (param : Param) : Evaluating (Param × Option Value) := do
  let exprs := (slots.get param.name).map Actual.code
  let values ←
    if param.quoted then pure (exprs.map fun e => (⟨.code e, Standard.expr⟩ : Value))
    else exprs.mapM fun e => evaluate e scope
  if param.arity.isVariadic then
    return (param, some (← Evaluating.reporting (liftList instances values)))
  else return (param, values.head?)

def typeNamed (evaluate : Evaluate) (scope : Nat) (code : Expr) : Evaluating Payload := do
  let value ← evaluate code scope
  if value.type ≠ Standard.type then throw (.notAType code)
  return value.payload

def declared (evaluate : Evaluate) (scope : Nat) (function : String) (form : Expr) :
    Evaluating (String × Payload) :=
  match form with
  | .seq [.atom name, type] => do return (name, ← typeNamed evaluate scope type)
  | _ => throw (.badParameter function form)

def typeOf? : Payload → Option Term
  | .type t => some t
  | _ => none

/-- What a defined function does: it closes over its scope, unless something else stands where a type
belongs. -/
def definedBody (scope : Nat) (code : Expr) (declarations : List Payload) : Body :=
  match declarations.zipIdx.find? fun entry => (typeOf? entry.1).isNone with
  | some (p, sound) => .flawed sound p.kind
  | none => .closure scope code

/-- Bind a function that closes over a scope. -/
def defineFunction (evaluate : Evaluate) (scope : Nat) (name : String) (forms : List Expr)
    (result code : Expr) : Evaluating Unit := do
  let params ← forms.mapM (declared evaluate scope name)
  let resultType ← typeNamed evaluate scope result
  let declarations := params.map Prod.snd ++ [resultType]
  let typed (p : Payload) : Term := (typeOf? p).getD Standard.nothing
  let typedParams := params.map fun param => Param.required param.1 (typed param.2)
  match Param.repeated? typedParams with
  | some repeated => throw (.repeatedParameter repeated)
  | none =>
    let _ ← Evaluating.payload (declarations.mapM Payload.key)
    modify fun store => store.addFunction scope
      { id := 0, name := name, typeParams := [], params := typedParams, result := typed resultType
        implicits := [], body := definedBody scope code declarations }

/-- Bind the value of an expression to a name, or a function to the name in its signature. -/
def define (evaluate : Evaluate) (scope : Nat) (head code : Expr) : Evaluating Unit :=
  match head with
  | .atom name =>
    if Expr.isKeyword name then throw (.badDefinition head)
    else do
      let value ← evaluate code scope
      modify fun store => store.assign scope name value
  | .seq (.atom name :: form :: forms) =>
    defineFunction evaluate scope name ((form :: forms).dropLast)
      ((form :: forms).getLast (by simp)) code
  | _ => throw (.badDefinition head)

/-- Call a function that was defined in a scope: bind the arguments in a child of that scope, evaluate
the code there, and make the outcome acceptable for the declared result. -/
def callClosure (instances : Instances) (evaluate : Evaluate) (home : Nat) (code : Expr)
    (result : Term) (args : Bound) : Evaluating Payload := do
  let inner ← modifyGet fun store => store.child home
  args.forM fun arg =>
    match arg.2 with
    | some value => modify fun store => store.assign inner arg.1.name value
    | none => pure ()
  let outcome ← evaluate code inner
  let coerced ← Evaluating.typing .fresh (coerce instances outcome result "result")
  return coerced.1.payload

/-- The payload that a host function returns. -/
def runHost (evaluate : Evaluate) (scope : Nat) (args : Bound) (implicits : List Evidence) :
    Recipe → Evaluating Payload
  | .all => return .list (args.map fun arg => args.payload arg.1.name)
  | .pick arg => .payload (args.given arg)
  | .types => return .list (args.map fun arg => match arg.2 with
    | some value => .type value.type
    | none => .none)
  | .implicits => return .list (implicits.map fun e => .text e.shown)
  | .cast k arg => .payload do
    (← Evidence.numbered implicits k).toCast.apply (← args.given arg)
  | .combine k a b => .payload do
    (← (← Evidence.numbered implicits k).adder) (← args.given a) (← args.given b)
  | .invert k arg => .payload do
    (← Evidence.numbered implicits k).invert (← args.given arg)
  | .zero k => .payload do (← Evidence.numbered implicits k).zero
  | .evaluate arg => do
    let code ← codeOf (← .payload (args.given arg))
    return (← evaluate code scope).payload
  | .fail text => throw (.failed text)

def runSum (a b : Payload) (implicits : List Evidence) : Except ValueFault Payload := do
  let left ← Evidence.numbered implicits 0
  let right ← Evidence.numbered implicits 1
  let add ← (← Evidence.numbered implicits 2).adder
  add (← left.toCast.apply a) (← right.toCast.apply b)

/-- Run the body of a function on arguments that agree with its parameters. -/
def runBody (instances : Instances) (evaluate : Evaluate) (fn : Function) (scope : Nat)
    (args : Bound) (implicits : List Evidence) : Evaluating Payload :=
  match fn.body with
  | .sum => .payload (runSum (args.payload "a") (args.payload "b") implicits)
  | .list => .payload ((args.payload "items").parts.map .list)
  | .pair => return .pair (args.payload "first") (args.payload "second")
  | .map => .payload do Payload.ofPairs (← (args.payload "entries").parts)
  | .set => .payload do Payload.ofElements (← (args.payload "items").parts)
  | .define => do
    define evaluate scope (← codeOf (args.payload "name")) (← codeOf (args.payload "body"))
    return .none
  | .quote => return args.payload "expr"
  | .host recipe => runHost evaluate scope args implicits recipe
  | .closure home code => callClosure instances evaluate home code fn.result args
  | .flawed _ kind => throw (.payload (.objectWithout kind "subst"))

/-- Make the supplied arguments acceptable for the declared types of their parameters, in order. -/
def coerceArguments (instances : Instances) (γ : Term.Mapping) (args : Bound) : Coercing Bound :=
  args.mapM fun arg =>
    match arg.2 with
    | some value => do
      return (arg.1, some (← coerce instances value (arg.1.type.subst γ) arg.1.name))
    | none => return arg

/-- The arguments that can be checked: all of them, or those before something that is no type. -/
def checkable (fn : Function) (args : Bound) : Bound :=
  match fn.body with
  | .flawed sound _ => args.take sound
  | _ => args

/-- The fresh variables that a call puts in the place of the type parameters, and what is known then. -/
abbrev Function.opened (fn : Function) : Term.Mapping × Typer :=
  Typer.fresh.freshFor .unification fn.typeParams

/-- The part of a call before its body: check the arguments against the declared types, and find the
evidence. Returns the checked arguments with what is known then, and what is found for the
implicits. -/
def checkCall (instances : Instances) (fn : Function) (args : Bound) :
    Evaluating ((Bound × Typer) × (Typer × List Evidence)) := do
  let checked ← Evaluating.typing fn.opened.2
    (coerceArguments instances fn.opened.1 (checkable fn args))
  let goals := fn.implicits.map fun goal => checked.2.read (goal.subst fn.opened.1)
  let found ← Evaluating.reporting (instances.meet checked.2 goals)
  return (checked, found)

/-- The part of a call that follows: run the body, and read the result type. -/
def concludeCall (instances : Instances) (evaluate : Evaluate) (fn : Function) (scope : Nat)
    (checked : Bound) (found : Typer × List Evidence) : Evaluating Value := do
  let payload ← runBody instances evaluate fn scope checked found.2
  return ⟨payload, found.1.read (fn.result.subst fn.opened.1)⟩

/-- Check the arguments, find the evidence, and run the body. -/
def callChecked (instances : Instances) (evaluate : Evaluate) (fn : Function) (args : Bound)
    (scope : Nat) : Evaluating Value := do
  let done ← checkCall instances fn args
  concludeCall instances evaluate fn scope done.1.1 done.2

/-- Call a function. -/
def call (instances : Instances) (evaluate : Evaluate) (fn : Function) (args : Bound)
    (scope : Nat) : Evaluating Value := do
  Evaluating.tell fun _ => ["call", fn.name]
  let value ← Evaluating.nested (callChecked instances evaluate fn args scope)
  Evaluating.tell fun _ => ["=>", value.payload.plain, ":", value.type.render]
  return value

/-- Evaluate an expression in a scope, leaving its parts to `evaluate`. -/
def evaluateStep (instances : Instances) (evaluate : Evaluate) : Evaluate
  | .integer n, _ => return ⟨.int n, Standard.litInt⟩
  | .decimal x, _ => return ⟨.real x, Standard.double⟩
  | .rational q, _ => return ⟨.rat q, Standard.rational⟩
  | .string s, _ => return ⟨.text s, Standard.litString⟩
  | .atom name, scope =>
    if Expr.isKeyword name then throw (.keywordAlone name) else fetch name scope
  | .seq [], _ => throw .emptyApplication
  | .seq (head :: rest), scope => do
    let callee ← evaluate head scope
    match callee.payload with
    | .function fn =>
      let slots ← matchCall fn rest
      let args ← fn.params.mapM (argument instances evaluate scope slots)
      call instances evaluate fn args scope
    | _ => throw (.notAFunction head callee)

/-- Evaluate an expression in a scope, going at most so deep. -/
def evaluateWithin (instances : Instances) : Nat → Evaluate
  | 0, _, _ => throw .tooDeep
  | depth + 1, e, scope => evaluateStep instances (evaluateWithin instances depth) e scope

def evaluationDepth : Nat := 100000

def evaluate (instances : Instances) : Evaluate := evaluateWithin instances evaluationDepth

end TypedCalls
