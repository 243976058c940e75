import TypedCalls.Call.Arity
import TypedCalls.Text.Quoted

/-!
Which arguments of a call go to which parameter.

Arguments are a sequence of values in which keywords introduce named arguments. Wherever a
parameter could take more or fewer of the values on offer, each possibility is explored. Exactly one
complete assignment is a success, and two different ones are an ambiguity. If nothing works, the
first of the most severe failures is the one reported.

A cursor says where a positional value goes next. A named argument may move it forward over
parameters that can be empty. Going backward, or passing over a parameter that cannot be empty, ends
positional values for good.

`MatchState.expand` is one step of the exploration: a state is an outcome, or it leads to further
states. `Matching.search` explores, and stops at the first ambiguity.
-/

set_option autoImplicit false

namespace TypedCalls

variable {α : Type}

/-- A parameter as the matching sees it. -/
structure Formal where
  name : String
  arity : Arity
  deriving DecidableEq

/-- An argument of a call: a value, or the keyword that names what follows. -/
inductive Argument (α : Type) where
  | value (a : α)
  | keyword (name : String)
  deriving DecidableEq, Repr

namespace Argument

def keyword? : Argument α → Option String
  | .value _ => none
  | .keyword name => some name

def leadingValues : List (Argument α) → List α
  | .value a :: rest => a :: leadingValues rest
  | _ => []

end Argument

def keywordText (name : String) : String := ":" ++ name

/-- The values each parameter has received, in declared order. -/
abbrev Assignment (α : Type) := List (String × List α)

namespace Assignment

def empty (formals : List Formal) : Assignment α := formals.map fun f => (f.name, [])

def get (assignment : Assignment α) (name : String) : List α := (assignment.lookup name).getD []

def put (assignment : Assignment α) (name : String) (values : List α) : Assignment α :=
  assignment.map fun slot => if slot.1 = name then (name, values) else slot

theorem get_put_self {assignment : Assignment α} {name : String} (values : List α)
    (declared : name ∈ assignment.map Prod.fst) :
    (assignment.put name values).get name = values := by
  induction assignment with
  | nil => cases declared
  | cons slot rest ih =>
    by_cases h : slot.1 = name
    · simp [get, put, h]
    · have declared : name ∈ rest.map Prod.fst := by
        rcases List.mem_cons.mp declared with same | declared
        · exact absurd same.symm h
        · exact declared
      have := ih declared
      simp only [get, put] at this ⊢
      have ne : (name == slot.1) = false := by simpa using fun e : name = slot.1 => h e.symm
      rw [List.map_cons, if_neg h, List.lookup_cons, ne]
      exact this

theorem get_put_of_ne {assignment : Assignment α} {name other : String} (values : List α)
    (ne : other ≠ name) : (assignment.put name values).get other = assignment.get other := by
  induction assignment with
  | nil => rfl
  | cons slot rest ih =>
    simp only [get, put] at ih ⊢
    by_cases h : slot.1 = name
    · have h1 : (other == name) = false := by simpa using ne
      have h2 : (other == slot.1) = false := by simpa [h] using ne
      rw [List.map_cons, if_pos h, List.lookup_cons, List.lookup_cons, h1, h2]
      exact ih
    · rw [List.map_cons, if_neg h, List.lookup_cons, List.lookup_cons]
      cases other == slot.1 with
      | true => rfl
      | false => exact ih

end Assignment

/-- Where positional values go. -/
inductive Cursor where
  | positional (index : Nat)
  | named (outOfOrder : Bool)
  deriving DecidableEq, Repr

def Cursor.advance : Cursor → Cursor
  | .positional index => .positional (index + 1)
  | .named outOfOrder => .named outOfOrder

/-- What must never happen while arguments are matched. -/
inductive MatchFault where
  | tooDeep
  | noChoice
  | unknownName (name : String)
  | arity (error : ArityError)
  deriving DecidableEq

/-- What came of a part of the exploration. -/
inductive Outcome (α : Type) where
  | success (assignment : Assignment α)
  | missing (names : List String)
  | tooMany (name : String) (extra : List α) (duplicate : Bool)
  | stray (value : α) (outOfOrder : Bool)
  | ambiguous (name : String)
  | fault (fault : MatchFault)
  deriving DecidableEq

def Outcome.severity : Outcome α → Nat
  | .success _ => 0
  | .missing _ => 1
  | .tooMany .. => 2
  | .stray .. => 5
  | .ambiguous _ => 10
  | .fault _ => 20

/-- A point of the exploration: the cursor, the arguments left, and what was assigned so far. -/
structure MatchState (α : Type) where
  cursor : Cursor
  rest : List (Argument α)
  taken : Assignment α

/-- What follows from a state: it is an outcome, it leads on to one other state, or a parameter
leaves a choice between several. -/
inductive Expansion (α : Type) where
  | leaf (outcome : Outcome α)
  | onward (state : MatchState α)
  | choice (name : String) (states : List (MatchState α))

namespace MatchState

def finished (formals : List Formal) (taken : Assignment α) : Outcome α :=
  let lacks (f : Formal) : Except ArityError Bool :=
    (f.arity.consume (taken.get f.name).length).map fun left => 0 < left.minimum
  match formals.filterM lacks with
  | .error e => .fault (.arity e)
  | .ok [] => .success taken
  | .ok missing => .missing (missing.map Formal.name)

/-- The states after a parameter took `count` of the values on offer. -/
def taking (state : MatchState α) (name : String) (effective : Arity) (cursor : Cursor)
    (skip : Nat) (values : List α) (count : Nat) : Except ArityError (List (MatchState α)) := do
  let left ← effective.consume count
  let next (c : Cursor) : MatchState α :=
    { cursor := c
      rest := state.rest.drop (skip + count)
      taken := state.taken.put name (state.taken.get name ++ values.take count) }
  return if count = 0 ∨ left.isFull then [next cursor.advance]
    else [next cursor.advance, next cursor]

def bounds (effective : Arity) (least : Nat) (greedy : Bool) (n : Nat) : Nat × Nat :=
  let lo := max least (min effective.minimum n)
  let hi := match effective.maximum with
    | none => n
    | some most => min most n
  (if greedy then max lo hi else lo, hi)

def counts (lo hi : Nat) : List Nat := (List.range (hi + 1 - lo)).map (lo + ·)

/-- Let a parameter take some of the values on offer: at least `least`, and as many as it can if
`greedy`. The values stand behind `skip` arguments. -/
def offer (formals : List Formal) (state : MatchState α) (cursor : Cursor) (name : String)
    (least : Nat) (greedy : Bool) (skip : Nat) (values : List α) : Expansion α :=
  match formals.find? fun f => f.name == name with
  | none => .leaf (.fault (.unknownName name))
  | some f =>
    match f.arity.consume (state.taken.get name).length with
    | .error e => .leaf (.fault (.arity e))
    | .ok effective =>
      if effective.isFull then .leaf (.tooMany name values (f.arity.maximum == some 1))
      else
        let range := bounds effective least greedy values.length
        match (counts range.1 range.2).mapM
            (state.taking name effective cursor skip values) with
        | .error e => .leaf (.fault (.arity e))
        | .ok states => .choice name states.flatten

/-- Where a keyword moves the cursor: forward over parameters that can be empty, or out of order. -/
def cursorAt (formals : List Formal) (name : String) : Cursor → Cursor
  | .named outOfOrder => .named outOfOrder
  | .positional index =>
    let target := formals.findIdx fun f => f.name == name
    if index < target then
      if ((formals.take target).drop index).all fun f => f.arity.isNullable then
        .positional target
      else .named true
    else if target < index then .named true
    else .positional index

/-- What follows from a state. -/
def expand (formals : List Formal) (state : MatchState α) : Expansion α :=
  match state.rest with
  | [] => .leaf (finished formals state.taken)
  | .value a :: _ =>
    match state.cursor with
    | .named outOfOrder => .leaf (.stray a outOfOrder)
    | .positional index =>
      match formals[index]? with
      | none => .onward { state with cursor := .named false }
      | some f => offer formals state state.cursor f.name 0 false 0 [a]
  | .keyword name :: rest =>
    match state.cursor with
    | .positional index =>
      if formals.length ≤ index then .onward { state with cursor := .named false }
      else
        offer formals state (cursorAt formals name state.cursor) name 1 true 1
          (Argument.leadingValues rest)
    | .named _ =>
      offer formals state state.cursor name 1 true 1 (Argument.leadingValues rest)

end MatchState

namespace Matching

def better (best case : Outcome α) : Bool :=
  match case with
  | .success _ => true
  | _ => best.severity < case.severity

/-- The best outcome of several states that `name` left a choice between, explored in order. -/
def best [BEq α] (explore : MatchState α → Outcome α) (name : String) :
    Option (Outcome α) → List (MatchState α) → Outcome α
  | sofar, [] => sofar.getD (.fault .noChoice)
  | sofar, state :: states =>
    match explore state with
    | .ambiguous around => .ambiguous around
    | .fault fault => .fault fault
    | case =>
      match sofar, case with
      | none, _ => best explore name (some case) states
      | some (.success a), .success b =>
        if a == b then best explore name (some (.success a)) states else .ambiguous name
      | some (.success a), _ => best explore name (some (.success a)) states
      | some failure, _ =>
        best explore name (some (if better failure case then case else failure)) states

def search [BEq α] (formals : List Formal) : Nat → MatchState α → Outcome α
  | 0, _ => .fault .tooDeep
  | depth + 1, state =>
    match state.expand formals with
    | .leaf outcome => outcome
    | .onward next => search formals depth next
    | .choice name states => best (search formals depth) name none states

/-- The state before any argument was looked at. -/
def start (formals : List Formal) (arguments : List (Argument α)) : MatchState α :=
  ⟨.positional 0, arguments, .empty formals⟩

def explore [BEq α] (formals : List Formal) (arguments : List (Argument α)) : Outcome α :=
  search formals (formals.length + arguments.length + 1) (start formals arguments)

/-- The keywords that no value follows. -/
def keywordsWithoutValue : List (Argument α) → List String
  | [] => []
  | [.keyword name] => [name]
  | .keyword name :: .keyword next :: rest =>
    name :: keywordsWithoutValue (.keyword next :: rest)
  | .keyword _ :: .value _ :: rest => keywordsWithoutValue rest
  | .value _ :: rest => keywordsWithoutValue rest

end Matching

/-- Why arguments do not match parameters. -/
inductive MatchError (α : Type) where
  | repeatedParameter (names : List String)
  | unknown (names : List String)
  | needsValue (names : List String)
  | missing (names : List String)
  | tooMany (values : List α)
  | duplicate (name : String)
  | outOfOrder (value : α)
  | ambiguous (name : String)
  | fault (fault : MatchFault)
  deriving DecidableEq

/-- What is said about arguments that do not match, given the text of a value. -/
def MatchError.message (valueText : α → String) : MatchError α → String
  | .repeatedParameter names => "Duplicate parameter names: " ++ ", ".intercalate names
  | .unknown names => "Unknown named argument: " ++ ", ".intercalate names
  | .needsValue names => "Named argument needs at least one value: " ++ ", ".intercalate names
  | .missing names => "Missing required argument: " ++ ", ".intercalate names
  | .tooMany values =>
    "Too many arguments provided. Extra: " ++ ", ".intercalate (values.map valueText)
  | .duplicate name => "Duplicate argument provided for " ++ Text.quoted name ++ "."
  | .outOfOrder value =>
    "Positional argument " ++ valueText value ++ " cannot follow an out-of-order named argument."
  | .ambiguous name =>
    "Ambiguous assignment of positional arguments around parameter " ++ Text.quoted name ++ "."
  | .fault _ => "Argument matching recursed too deeply."

def Outcome.toExcept : Outcome α → Except (MatchError α) (Assignment α)
  | .success assignment => .ok assignment
  | .missing names => .error (.missing names)
  | .tooMany name extra duplicate => .error (if duplicate then .duplicate name else .tooMany extra)
  | .stray value outOfOrder => .error (if outOfOrder then .outOfOrder value else .tooMany [value])
  | .ambiguous name => .error (.ambiguous name)
  | .fault broken => .error (.fault broken)

/-- Assign the arguments of a call to its parameters. Every parameter appears in the result, in
declared order. -/
def matchArguments [BEq α] (formals : List Formal) (arguments : List (Argument α)) :
    Except (MatchError α) (Assignment α) :=
  let names := formals.map Formal.name
  let keywords := arguments.filterMap Argument.keyword?
  if ¬ names.Nodup then .error (.repeatedParameter names)
  else
    match keywords.filter (· ∉ names), Matching.keywordsWithoutValue arguments with
    | [], [] => (Matching.explore formals arguments).toExcept
    | [], empty => .error (.needsValue empty)
    | unknown, _ => .error (.unknown unknown)

end TypedCalls
