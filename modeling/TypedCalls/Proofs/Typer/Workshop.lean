import TypedCalls.Typer.Workshop

/-!
What work at one bench leaves alone.

An operation of the current typer changes its own bench and the board it works on, or puts up a new
board (`Updates`). So a typer at another bench, whose board is not that one, does not change
(`Updates.typerAt`). Copies get a board that nobody else works on.
-/

set_option autoImplicit false

namespace TypedCalls.Workshop

private theorem getD_setIfInBounds {α : Type} {xs : Array α} {i : Nat} (inside : i < xs.size)
    (x default : α) (j : Nat) :
    (xs.setIfInBounds i x).getD j default = if j = i then x else xs.getD j default := by
  rw [Array.getD_eq_getD_getElem?, Array.getD_eq_getD_getElem?, Array.getElem?_setIfInBounds]
  by_cases here : j = i
  · simp [here, inside]
  · simp [here, Ne.symm here]

private theorem getD_push {α : Type} (xs : Array α) (x default : α) (j : Nat) :
    (xs.push x).getD j default = if j = xs.size then x else xs.getD j default := by
  rw [Array.getD_eq_getD_getElem?, Array.getD_eq_getD_getElem?, Array.getElem?_push]
  split <;> rfl

/-- The bench and the board of the current typer exist. -/
structure InPlace (w : Workshop) : Prop where
  bench : w.current < w.benches.size
  board : (w.bench w.current).board < w.boards.size

/-- The current typer has become another one, at the same bench, on its board or on a new one. Other
benches and other boards are as they were. -/
structure Updates (w : Workshop) (typer : Typer) (w' : Workshop) : Prop where
  current : w'.current = w.current
  count : w'.benches.size = w.benches.size
  more : w.boards.size ≤ w'.boards.size
  place : (w'.bench w.current).board = (w.bench w.current).board ∨
    w.boards.size ≤ (w'.bench w.current).board
  inside : (w'.bench w.current).board < w'.boards.size
  becomes : w'.typerAt w.current = typer
  benches : ∀ k, k ≠ w.current → w'.bench k = w.bench k
  boards : ∀ b < w.boards.size, b ≠ (w.bench w.current).board →
    w'.boards.getD b .empty = w.boards.getD b .empty

variable {w w' w'' : Workshop} {typer typer' : Typer}

private theorem Updates.inPlace (updates : Updates w typer w') (place : w.InPlace) :
    w'.InPlace := by
  constructor
  · rw [updates.current, updates.count]
    exact place.bench
  · rw [updates.current]
    exact updates.inside

theorem Updates.typerAt (updates : Updates w typer w') {k : Nat} (other : k ≠ w.current)
    (inside : (w.bench k).board < w.boards.size)
    (apart : (w.bench k).board ≠ (w.bench w.current).board) : w'.typerAt k = w.typerAt k := by
  rw [Workshop.typerAt, Workshop.typerAt, updates.benches k other,
    updates.boards _ inside apart]

theorem Updates.refl (place : w.InPlace) : Updates w w.typer w :=
  ⟨rfl, rfl, Nat.le_refl _, .inl rfl, place.board, rfl, fun _ _ => rfl, fun _ _ _ => rfl⟩

private theorem Updates.trans (first : Updates w typer w') (second : Updates w' typer' w'') :
    Updates w typer' w'' := by
  obtain ⟨current, count, more, place, inside, becomes, benches, boards⟩ := second
  rw [first.current] at current place inside becomes benches boards
  have before := first.more
  refine ⟨current, count.trans first.count, Nat.le_trans before more, ?_, inside, becomes,
    fun k other => (benches k other).trans (first.benches k other), fun b known differs => ?_⟩
  · rcases place with same | new
    · rw [same]
      exact first.place
    · exact .inr (Nat.le_trans before new)
  · have differs' : b ≠ (w'.bench w.current).board := by
      rcases first.place with same | new
      · rwa [same]
      · omega
    exact (boards b (by omega) differs').trans (first.boards b known differs)

theorem updates_write (place : w.InPlace) (typer : Typer) : Updates w typer (w.write typer) := by
  have benches (k : Nat) : (w.write typer).bench k = if k = w.current
      then ⟨(w.bench w.current).board, typer.rigid, typer.counter⟩ else w.bench k :=
    getD_setIfInBounds place.bench _ _ k
  have boards (b : Nat) : (w.write typer).boards.getD b .empty =
      if b = (w.bench w.current).board then typer.classes else w.boards.getD b .empty :=
    getD_setIfInBounds place.board _ _ b
  have size : (w.write typer).boards.size = w.boards.size := Array.size_setIfInBounds
  have here := (benches w.current).trans (if_pos rfl)
  refine ⟨rfl, Array.size_setIfInBounds, Nat.le_of_eq size.symm, .inl ?_, ?_, ?_,
    fun k other => (benches k).trans (if_neg other),
    fun b _ differs => (boards b).trans (if_neg differs)⟩
  · rw [here]
  · rw [here, size]
    exact place.board
  · rw [typerAt, here, boards, if_pos rfl]

theorem updates_move (place : w.InPlace) (typer : Typer) : Updates w typer (w.move typer) := by
  have benches (k : Nat) : (w.move typer).bench k = if k = w.current
      then ⟨w.boards.size, typer.rigid, typer.counter⟩ else w.bench k :=
    getD_setIfInBounds place.bench _ _ k
  have boards (b : Nat) : (w.move typer).boards.getD b .empty =
      if b = w.boards.size then typer.classes else w.boards.getD b .empty := getD_push ..
  have size : (w.move typer).boards.size = w.boards.size + 1 := Array.size_push ..
  have here := (benches w.current).trans (if_pos rfl)
  refine ⟨rfl, Array.size_setIfInBounds, by omega, .inr ?_, ?_, ?_,
    fun k other => (benches k).trans (if_neg other),
    fun b known _ => (boards b).trans (if_neg (Nat.ne_of_lt known))⟩
  · exact Nat.le_of_eq (congrArg Bench.board here).symm
  · rw [here, size]
    exact Nat.lt_succ_self _
  · rw [typerAt, here, boards, if_pos rfl]

theorem updates_finish (place : w.InPlace) (s : Session) : Updates w s.typer (w.finish s) := by
  unfold finish
  split
  · exact updates_write place s.typer
  · next former _ =>
    have first := updates_write place { s.typer with classes := former }
    exact first.trans (updates_move (first.inPlace place) s.typer)

/-! Copies. -/

theorem bench_copy (w : Workshop) (k : Nat) : w.copy.2.bench k =
    if k = w.benches.size then { w.bench w.current with board := w.boards.size } else w.bench k :=
  getD_push ..

private theorem boards_copy (w : Workshop) (b : Nat) : w.copy.2.boards.getD b .empty =
    if b = w.boards.size then w.typer.classes else w.boards.getD b .empty :=
  getD_push ..

theorem typerAt_copy (w : Workshop) : w.copy.2.typerAt w.copy.1 = w.typer := by
  have here := (w.bench_copy w.copy.1).trans (if_pos rfl)
  rw [typerAt, here, boards_copy, if_pos rfl]
  rfl

theorem typerAt_copy_of_ne {k : Nat} (other : k ≠ w.copy.1)
    (inside : (w.bench k).board < w.boards.size) : w.copy.2.typerAt k = w.typerAt k := by
  have there := (w.bench_copy k).trans (if_neg other)
  rw [typerAt, there, boards_copy, if_neg (Nat.ne_of_lt inside)]
  rfl

/-! Adoption. -/

theorem bench_adopt (place : w.current < w.benches.size) (j k : Nat) :
    (w.adopt j).bench k = if k = w.current then w.bench j else w.bench k :=
  getD_setIfInBounds place _ _ k

theorem typerAt_adopt (place : w.current < w.benches.size) (j : Nat) :
    (w.adopt j).typerAt w.current = w.typerAt j := by
  rw [typerAt, bench_adopt place, if_pos rfl]
  rfl

theorem typerAt_adopt_of_ne (place : w.current < w.benches.size) (j : Nat) {k : Nat}
    (other : k ≠ w.current) : (w.adopt j).typerAt k = w.typerAt k := by
  rw [typerAt, bench_adopt place, if_neg other]
  rfl

end TypedCalls.Workshop
