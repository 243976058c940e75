import TypedCalls.Term.Basic

/-!
Classes of type variables that are known to be the same, and what each class stands for.

Classes are numbered in order of making. Each variable remembers the class it joined, each class
points at the class it merged into, or at itself, and each class that points at itself may carry one
bound term. When two classes merge the one made later survives, so pointers only grow.

Reading functions (`classOf?`, `bound?`, `same`, `membersOf`, `listing`) follow pointers and change
nothing. The operations (`find`, `get`, `compare`, `members`, `classes`, `set`, `join`) halve the
paths they walk on and return the shortened structure beside their answer.
-/

set_option autoImplicit false

namespace TypedCalls

/-- A numbered class: the class it merged into, and the term it stands for. -/
structure ClassNode where
  parent : Nat
  bound : Option Term
  deriving Inhabited, DecidableEq, Repr

/-- Variables in order of first mention with the class each joined, and the classes by number. -/
structure Classes where
  entries : List (TypeVar × Nat)
  nodes : Array ClassNode
  deriving Inhabited, DecidableEq, Repr

namespace Classes

def empty : Classes := ⟨[], #[]⟩

def parentIn (nodes : Array ClassNode) (c : Nat) : Nat :=
  match nodes[c]? with
  | some node => node.parent
  | none => c

def climb (nodes : Array ClassNode) : Nat → Nat → Nat
  | 0, c => c
  | n + 1, c => if parentIn nodes c = c then c else climb nodes n (parentIn nodes c)

def root (s : Classes) (c : Nat) : Nat := climb s.nodes s.nodes.size c

/-- What class `c` is bound to. -/
def boundAt (s : Classes) (c : Nat) : Option Term :=
  match s.nodes[c]? with
  | some node => node.bound
  | none => none

def entry? (s : Classes) (e : TypeVar) : Option Nat := s.entries.lookup e

def mentioned (s : Classes) : List TypeVar := s.entries.map Prod.fst

def classOf? (s : Classes) (e : TypeVar) : Option Nat := (s.entry? e).map s.root

/-- What a variable's class is bound to. -/
def bound? (s : Classes) (e : TypeVar) : Option Term :=
  match s.classOf? e with
  | some c => s.boundAt c
  | none => none

def same (s : Classes) (a b : TypeVar) : Bool :=
  a == b || (s.classOf? a).any fun c => s.classOf? b == some c

def contains (s : Classes) (e : TypeVar) : Bool := (s.entry? e).isSome

def placed (s : Classes) : List (TypeVar × Nat) :=
  s.entries.map fun entry => (entry.1, s.root entry.2)

def membersOf (s : Classes) (e : TypeVar) : List TypeVar :=
  match s.classOf? e with
  | some c => (s.placed.filter fun x => x.2 == c).map Prod.fst
  | none => [e]

def listing (s : Classes) : List (List TypeVar × Option Term) :=
  let placed := s.placed
  (List.range s.nodes.size).filterMap fun c =>
    match (placed.filter fun x => x.2 == c).map Prod.fst with
    | [] => none
    | members => some (members, s.boundAt c)

def halve : Nat → Array ClassNode → Nat → Nat × Array ClassNode
  | 0, nodes, c => (c, nodes)
  | n + 1, nodes, c =>
    if parentIn nodes c = c then (c, nodes)
    else
      let up := parentIn nodes (parentIn nodes c)
      halve n (nodes.modify c fun node => { node with parent := up }) up

def relabel (entries : List (TypeVar × Nat)) (e : TypeVar) (c : Nat) : List (TypeVar × Nat) :=
  entries.map fun entry => if entry.1 = e then (e, c) else entry

/-- The surviving class of a variable; the paths walked on the way become shorter. -/
def find (s : Classes) (e : TypeVar) : Option Nat × Classes :=
  match s.entry? e with
  | none => (none, s)
  | some c =>
    let walked := halve s.nodes.size s.nodes c
    (some walked.1,
      { entries := if walked.1 = c then s.entries else relabel s.entries e walked.1
        nodes := walked.2 })

def findAll (s : Classes) : List TypeVar → List (TypeVar × Option Nat) × Classes
  | [] => ([], s)
  | e :: es =>
    let found := s.find e
    let rest := findAll found.2 es
    ((e, found.1) :: rest.1, rest.2)

def get (s : Classes) (e : TypeVar) : Option Term × Classes :=
  let found := s.find e
  (found.1.bind found.2.boundAt, found.2)

def compare (s : Classes) (a b : TypeVar) : Bool × Classes :=
  if a = b then (true, s)
  else
    let first := s.find a
    let second := first.2.find b
    (first.1.isSome && first.1 == second.1, second.2)

def members (s : Classes) (e : TypeVar) : List TypeVar × Classes :=
  let found := s.find e
  match found.1 with
  | none => ([e], found.2)
  | some c =>
    let all := found.2.findAll found.2.mentioned
    ((all.1.filter fun x => x.2 == some c).map Prod.fst, all.2)

/-- The members and the bound term of every surviving class that has members, by class number. -/
def classes (s : Classes) : List (List TypeVar × Option Term) × Classes :=
  let all := s.findAll s.mentioned
  ((List.range all.2.nodes.size).filterMap fun c =>
    match (all.1.filter fun x => x.2 == some c).map Prod.fst with
    | [] => none
    | members => some (members, all.2.boundAt c), all.2)

def bindAt (s : Classes) (c : Nat) (value : Option Term) : Classes :=
  { s with nodes := s.nodes.modify c fun node => { node with bound := value } }

def enter (s : Classes) (e : TypeVar) (c : Nat) : Classes :=
  { s with entries := s.entries ++ [(e, c)] }

def newClass (s : Classes) (value : Option Term) : Classes :=
  { s with nodes := s.nodes.push ⟨s.nodes.size, value⟩ }

def set (s : Classes) (e : TypeVar) (value : Option Term) : Classes :=
  let found := s.find e
  match found.1 with
  | some c => found.2.bindAt c value
  | none => (found.2.enter e found.2.nodes.size).newClass value

def merge (s : Classes) (loser winner : Nat) : Classes :=
  let value := (s.boundAt winner).or (s.boundAt loser)
  let pointed := s.nodes.modify loser fun _ => ⟨winner, none⟩
  { s with nodes := pointed.modify winner fun node => { node with bound := value } }

/-- Take two variables to be the same. -/
def join (s : Classes) (a b : TypeVar) : Classes :=
  let first := s.find a
  let second := first.2.find b
  let s := second.2
  match first.1, second.1 with
  | none, none =>
    if a = b then (s.enter a s.nodes.size).newClass none
    else ((s.enter a s.nodes.size).enter b s.nodes.size).newClass none
  | none, some c => s.enter a c
  | some c, none => s.enter b c
  | some c, some d => if c = d then s else s.merge (min c d) (max c d)

end Classes

end TypedCalls
