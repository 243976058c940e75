/-!
The edit distance between names, and which known names are like a given one.
-/

set_option autoImplicit false

namespace TypedCalls.Text

variable {α : Type} [DecidableEq α]

/-- The rest of the next row of the table: `corner` and `left` are the entries diagonally before and
before, `row` the entries above, one for each of the letters `bs`. -/
def rowTail (x : α) (corner left : Nat) : List α → List Nat → List Nat
  | y :: bs, above :: row =>
    let here := min (min (above + 1) (left + 1)) (corner + if x = y then 0 else 1)
    here :: rowTail x above here bs row
  | _, _ => []

def nextRow (bs : List α) (row : List Nat) (x : α) (start : Nat) : List Nat :=
  match row with
  | [] => [start]
  | corner :: row => start :: rowTail x corner start bs row

def lastRow (bs : List α) : List α → Nat → List Nat → List Nat
  | [], _, row => row
  | x :: as, done, row => lastRow bs as (done + 1) (nextRow bs row x (done + 1))

def listDistance (as bs : List α) : Nat :=
  let long := if as.length < bs.length then bs else as
  let short := if as.length < bs.length then as else bs
  (lastRow short long 0 (List.range (short.length + 1))).getLastD 0

/-- The least number of letters to insert, delete or replace to turn one word into the other. -/
def distance (a b : String) : Nat := listDistance a.toList b.toList

def ranked (name : String) (candidates : List String) (threshold : Int) : List String :=
  let rated := candidates.map fun c => (distance name c, c)
  let near := rated.filter fun r => (r.1 : Int) < threshold
  (near.mergeSort fun r s => r.1 < s.1 || (r.1 == s.1 && decide (r.2 ≤ s.2))).map Prod.snd

def upTo (limit : Int) (names : List String) : List String :=
  if 0 ≤ limit then names.take limit.toNat else names.take (names.length - (-limit).toNat)

def similarLimit : Int := 5

def similarThreshold : Int := 10

def similar (name : String) (candidates : List String) (limit threshold : Int) : List String :=
  upTo limit (ranked name candidates threshold)

end TypedCalls.Text
