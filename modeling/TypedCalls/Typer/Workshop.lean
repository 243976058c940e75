import TypedCalls.Typer.Unify

/-!
Several typers side by side, some of which share what they know.

What typers know of the variables stands on boards. A copy of a typer gets a board of its own. A typer
that adopts another moves to the board of the other, and from then on both see what either learns,
until one of them moves on to the board of a trial.
-/

set_option autoImplicit false

namespace TypedCalls

/-- A typer whose classes stand on a board. -/
structure Bench where
  board : Nat
  rigid : List TypeVar
  counter : Nat
  deriving Inhabited, DecidableEq, Repr

/-- Boards and the typers that work on them, one of which is the current one. -/
structure Workshop where
  boards : Array Classes
  benches : Array Bench
  current : Nat
  deriving Inhabited

namespace Workshop

def start : Workshop := ⟨#[Typer.fresh.classes], #[⟨0, Typer.fresh.rigid, Typer.fresh.counter⟩], 0⟩

def bench (w : Workshop) (k : Nat) : Bench := w.benches.getD k default

/-- The typer at a bench. -/
def typerAt (w : Workshop) (k : Nat) : Typer :=
  ⟨w.boards.getD (w.bench k).board .empty, (w.bench k).rigid, (w.bench k).counter⟩

def typer (w : Workshop) : Typer := w.typerAt w.current

def write (w : Workshop) (typer : Typer) : Workshop :=
  let board := (w.bench w.current).board
  { w with
    boards := w.boards.setIfInBounds board typer.classes
    benches := w.benches.setIfInBounds w.current ⟨board, typer.rigid, typer.counter⟩ }

def move (w : Workshop) (typer : Typer) : Workshop :=
  { w with
    boards := w.boards.push typer.classes
    benches := w.benches.setIfInBounds w.current ⟨w.boards.size, typer.rigid, typer.counter⟩ }

def finish (w : Workshop) (s : Session) : Workshop :=
  match s.former with
  | none => w.write s.typer
  | some former => (w.write { s.typer with classes := former }).move s.typer

def copy (w : Workshop) : Nat × Workshop :=
  (w.benches.size,
    { w with
      boards := w.boards.push w.typer.classes
      benches := w.benches.push { w.bench w.current with board := w.boards.size } })

def use (w : Workshop) (k : Nat) : Workshop := { w with current := k }

def adopt (w : Workshop) (k : Nat) : Workshop :=
  { w with benches := w.benches.setIfInBounds w.current (w.bench k) }

end Workshop

end TypedCalls
