import Mathlib.Logic.Function.Basic
import TypedCalls.Proofs.Eval.Coercion
import TypedCalls.Proofs.Instance.Visits
import TypedCalls.Proofs.Typer.Workshop

/-!
Fresh names stay fresh.

Operations on typers are performed at the benches of a workshop, where copies are made, worked on
and adopted. A `Log` goes with a run: what was returned at each bench, which bench a copy was made
from as long as that one is left alone, and which copies were adopted. A copy that was adopted
shares its board from then on and is not in use any more. At every bench in use the counter is ahead
of all names in what the typer knows and in everything that was returned, after any operations,
whether they succeeded or failed (`names_stay_fresh`). What a step does is said once for all
operations (`updates_perform`).
-/

set_option autoImplicit false

namespace TypedCalls

open Typer (Learned)
open Typing (Keeps)
open Resolution (Visited)

/-! Coercion gives out the names that it uses. -/

section Coercion

variable {instances : Instances} {s : Session}

private theorem Instances.learned_of_meetWithin (given : Registry.NamesGiven instances)
    {typer : Typer} (sound : typer.Sound .namesOlder) {goals : List Term}
    (older : ∀ g ∈ goals, g.NamesOlder typer.counter) {limit : Nat}
    {found : Typer × List Evidence} {report report' : Report}
    (met : instances.meetWithin limit typer goals report = .ok found report') :
    Learned .namesOlder typer found.1 :=
  Registry.learned_of_resolve given sound older (Instances.resolved_of_meetWithin met)

private theorem keeps_findCast_namesOlder (given : Registry.NamesGiven instances)
    (sound : s.typer.Sound .namesOlder) {value : Value} {target : Term}
    (olderValue : value.type.NamesOlder s.typer.counter)
    (olderTarget : target.NamesOlder s.typer.counter) (name : String) :
    Keeps .namesOlder s.typer (fun _ _ => True) (findCast instances value target name s) := by
  unfold findCast
  split
  · next typer evidence r met =>
    have older : ∀ g ∈ [Standard.upcast value.type target], g.NamesOlder s.typer.counter :=
      List.forall_mem_singleton.mpr (Term.namesOlder_con.mpr (by simp [olderValue, olderTarget]))
    exact .ok (Instances.learned_of_meetWithin given sound older met) trivial
  · exact .error (.refl _ s.typer)
  · exact .error (.refl _ s.typer)
  · exact .error (.refl _ s.typer)

private theorem keeps_convert_namesOlder (sound : s.typer.Sound .namesOlder) (value : Value)
    {target : Term} (older : target.NamesOlder s.typer.counter) (name : String) (cast : Cast) :
    Keeps .namesOlder s.typer (fun result typer => result.type.NamesOlder typer.counter)
      (convert value target name cast s) := by
  unfold convert
  cases applied : cast.apply value.payload with
  | ok payload => exact .ok (.refl _ s.typer) (Typer.namesOlder_read sound older)
  | error fault => exact .error (.refl _ s.typer)

private theorem keeps_coerce_namesOlder (given : Registry.NamesGiven instances)
    (sound : s.typer.Sound .namesOlder) {value : Value} {expected : Term}
    (olderValue : value.type.NamesOlder s.typer.counter)
    (olderExpected : expected.NamesOlder s.typer.counter) (name : String) :
    Keeps .namesOlder s.typer (fun result typer => result.type.NamesOlder typer.counter)
      (coerce instances value expected name s) := by
  have keeps := Typing.honours_unify .namesOlder expected value.type s.trial sound olderExpected
    olderValue
  unfold coerce
  split
  · next t unified =>
    rw [unified] at keeps
    have learned := keeps.success.1
    exact .ok learned (olderValue.mono learned.counter)
  · exact .error (.refl _ s.typer)
  · next t _ =>
    have olderTarget := Typer.namesOlder_read sound olderExpected
    exact Keeps.bind (keeps_findCast_namesOlder (s := s.discard t.report) given sound olderValue
      olderTarget name) fun cast s' learned _ =>
        keeps_convert_namesOlder (learned.sound sound) value (learned.fit olderTarget) name cast

end Coercion

namespace Workshop

/-! Operations. -/

/-- What is asked of the current typer. Resolution goes together with the adoption of the winner. -/
inductive Operation where
  | fresh (family : Family)
  | instantiate (family : Family) (vars : List TypeVar) (terms : List Term)
  | unify (a b : Term)
  | resolve (limit : Nat) (goals : List Term)
  | coerce (value : Value) (expected : Term) (name : String)

def Operation.supplied : Operation → List Term
  | .fresh _ => []
  | .instantiate _ _ terms => terms
  | .unify a b => [a, b]
  | .resolve _ goals => goals
  | .coerce value expected _ => [value.type, expected]

/-- Perform an operation. The answer is the terms that it returns, which are none if it fails, and
the workshop as it leaves it. -/
def perform (instances : Instances) (report : Report) (w : Workshop) :
    Operation → List Term × Workshop
  | .fresh family => ([.use (w.typer.freshVar family).1], w.write (w.typer.freshVar family).2)
  | .instantiate family vars terms =>
    ((w.typer.instantiate family vars terms).1, w.write (w.typer.instantiate family vars terms).2)
  | .unify a b => ([], w.finish (Typing.remains (Typing.unify a b (.start w.typer report))))
  | .resolve limit goals =>
    match instances.meetWithin limit w.typer goals report with
    | .ok found _ => ([], if goals.isEmpty then w else w.move found.1)
    | .error _ _ => ([], w)
  | .coerce value expected name =>
    match TypedCalls.coerce instances value expected name (.start w.typer report) with
    | .ok result s => ([result.type], w.finish s)
    | .error _ s => ([], w.finish s)

/-- Whatever is asked of the current typer, and whether it succeeds or fails: the typer has learned
and given out the names for it, what is returned has names that were given out, and nothing else
changes. -/
theorem updates_perform {instances : Instances} (given : Registry.NamesGiven instances)
    (report : Report) {w : Workshop} (place : w.InPlace) (numbered : w.typer.WellNumbered)
    {op : Operation} (older : ∀ t ∈ op.supplied, t.NamesOlder w.typer.counter) :
    ∃ typer, Updates w typer (w.perform instances report op).2 ∧
      Learned .namesOlder w.typer typer ∧
      ∀ t ∈ (w.perform instances report op).1, t.NamesOlder typer.counter := by
  have sound := numbered.sound
  cases op with
  | fresh family =>
    refine ⟨_, updates_write place _, w.typer.learned_freshVar _ family, ?_⟩
    exact List.forall_mem_singleton.mpr
      (Term.namesOlder_use.mpr (TypeVar.older_numbered family (Nat.le_refl _)))
  | instantiate family vars terms =>
    exact ⟨_, updates_write place _, w.typer.learned_freshFor _ family vars,
      w.typer.namesOlder_instantiate family vars older⟩
  | unify a b =>
    obtain ⟨olderA, olderB⟩ := List.forall_mem_cons.mp older
    have keeps := Typing.honours_unify .namesOlder a b (.start w.typer report) sound olderA
      (olderB b (List.mem_singleton_self b))
    exact ⟨_, updates_finish place _, keeps.learned, by simp [perform]⟩
  | resolve limit goals =>
    simp only [perform]
    split
    · next found r met =>
      have learned := Instances.learned_of_meetWithin given sound older met
      split
      · exact ⟨_, .refl place, .refl _ _, by simp⟩
      · exact ⟨_, updates_move place _, learned, by simp⟩
    · exact ⟨_, .refl place, .refl _ _, by simp⟩
  | coerce value expected name =>
    obtain ⟨olderValue, olderExpected⟩ := List.forall_mem_cons.mp older
    have keeps := keeps_coerce_namesOlder (s := .start w.typer report) given sound olderValue
      (olderExpected expected (List.mem_singleton_self _)) name
    simp only [perform]
    generalize TypedCalls.coerce instances value expected name (.start w.typer report) = result
      at keeps
    cases keeps with
    | ok learned returned =>
      exact ⟨_, updates_finish place _, learned, List.forall_mem_singleton.mpr returned⟩
    | error learned => exact ⟨_, updates_finish place _, learned, by simp⟩

/-! Runs. -/

/-- What is remembered of a run: the terms returned at each bench and at the copies adopted there,
the bench that a copy was made from if nothing was performed there since, and the copies that were
adopted. -/
structure Log where
  returned : Nat → List Term
  original : Nat → Option Nat
  adopted : List Nat

namespace Log

def empty : Log := ⟨fun _ => [], fun _ => none, []⟩

/-- The bench is there, and no other typer has adopted its typer. -/
def InUse (log : Log) (w : Workshop) (k : Nat) : Prop := k < w.benches.size ∧ k ∉ log.adopted

def returns (log : Log) (j : Nat) (terms : List Term) : Log :=
  { log with returned := Function.update log.returned j (log.returned j ++ terms) }

def changed (log : Log) (j : Nat) : Log :=
  { log with original := fun k => if log.original k = some j then none else log.original k }

def copied (log : Log) (j k : Nat) : Log :=
  { log with
    returned := Function.update log.returned k (log.returned j)
    original := Function.update log.original k (some j) }

def adopts (log : Log) (j k : Nat) : Log :=
  { (log.changed j).returns j (log.returned k) with adopted := k :: log.adopted }

variable {log : Log} {i j k : Nat} {terms : List Term}

private theorem returned_returns_self :
    (log.returns j terms).returned j = log.returned j ++ terms :=
  Function.update_self ..

private theorem returned_returns_of_ne (other : k ≠ j) :
    (log.returns j terms).returned k = log.returned k := Function.update_of_ne other ..

private theorem original_changed :
    (log.changed j).original k = some i ↔ log.original k = some i ∧ i ≠ j := by
  change (if log.original k = some j then none else log.original k) = some i ↔ _
  split
  · next lent => simp [lent, eq_comm]
  · next other =>
    refine ⟨fun lent => ⟨lent, fun same => other (same ▸ lent)⟩, And.left⟩

private theorem returned_copied_self : (log.copied j k).returned k = log.returned j :=
  Function.update_self ..

private theorem returned_copied_of_ne (other : i ≠ k) :
    (log.copied j k).returned i = log.returned i :=
  Function.update_of_ne other ..

private theorem original_copied_self :
    (log.copied j k).original k = some j := Function.update_self ..

private theorem original_copied_of_ne (other : i ≠ k) :
    (log.copied j k).original i = log.original i :=
  Function.update_of_ne other ..

end Log

/-- Workshops that come from one fresh typer, with their logs. Operations are performed at benches
in use, with terms whose made-up names, free or bound, have at most the number of the counter there,
and with instances that mention no such names. A typer adopts only copies that were made from it
while nothing was performed on itself. -/
inductive Run : Workshop → Log → Prop
  | start : Run .start .empty
  | performed {w : Workshop} {log : Log} {instances : Instances} (report : Report)
      (op : Operation) : Run w log → log.InUse w w.current → Registry.NamesGiven instances →
      (∀ t ∈ op.supplied, t.NamesOlder w.typer.counter) →
      Run (w.perform instances report op).2
        ((log.changed w.current).returns w.current (w.perform instances report op).1)
  | read {w : Workshop} {log : Log} {t : Term} : Run w log → log.InUse w w.current →
      t.NamesOlder w.typer.counter → Run w (log.returns w.current [w.typer.read t])
  | copied {w : Workshop} {log : Log} : Run w log → log.InUse w w.current →
      Run w.copy.2 (log.copied w.current w.copy.1)
  | used {w : Workshop} {log : Log} (k : Nat) : Run w log → Run (w.use k) log
  | adopted {w : Workshop} {log : Log} {k : Nat} : Run w log → log.InUse w w.current →
      log.original k = some w.current → Run (w.adopt k) (log.adopts w.current k)

/-- A copy whose original was left alone is in use, and has given out all names that its original
has. -/
def CopiesAhead (w : Workshop) (log : Log) : Prop :=
  ∀ {k j}, log.original k = some j → log.InUse w k ∧ j < w.benches.size ∧ j ≠ k ∧
    (w.typerAt j).counter ≤ (w.typerAt k).counter

/-- The benches in use have boards of their own and typers that are in order, and what was returned
at a bench has names that its typer has given out. -/
structure WellKept (w : Workshop) (log : Log) : Prop where
  adopted : ∀ k ∈ log.adopted, k < w.benches.size
  board : ∀ {k}, log.InUse w k → (w.bench k).board < w.boards.size
  apart : ∀ {j k}, log.InUse w j → log.InUse w k → (w.bench j).board = (w.bench k).board → j = k
  numbered : ∀ {k}, log.InUse w k → (w.typerAt k).WellNumbered
  older : ∀ {k}, log.InUse w k → ∀ t ∈ log.returned k, t.NamesOlder (w.typerAt k).counter
  copies : CopiesAhead w log

section

variable {w w' : Workshop} {log : Log} {typer : Typer}

private theorem wellKept_start : WellKept start .empty := by
  have first {k : Nat} (used : Log.empty.InUse start k) : k = 0 :=
    Nat.lt_one_iff.mp used.1
  refine ⟨by simp [Log.empty], fun used => ?_, fun usedJ usedK _ => ?_, fun used => ?_,
    fun used => by simp [Log.empty], fun lent => by simp [Log.empty] at lent⟩
  · rw [first used]
    decide
  · rw [first usedJ, first usedK]
  · rw [first used]
    exact Typer.wellNumbered_fresh

private theorem WellKept.inPlace (kept : WellKept w log) (used : log.InUse w w.current) :
    w.InPlace :=
  ⟨used.1, kept.board used⟩

/-- Benches in use other than `j` were in use before, with the same typer, board and terms, and none
of them works on the board of `j`. -/
structure KeepsOthers (w : Workshop) (log : Log) (w' : Workshop) (log' : Log) (j : Nat) : Prop where
  more : w.boards.size ≤ w'.boards.size
  inside : (w'.bench j).board < w'.boards.size
  used : ∀ {k}, log'.InUse w' k → k ≠ j → log.InUse w k
  board : ∀ {k}, log'.InUse w' k → k ≠ j → (w'.bench k).board = (w.bench k).board
  own : ∀ {k}, log'.InUse w' k → k ≠ j → (w.bench k).board ≠ (w'.bench j).board
  typer : ∀ {k}, log'.InUse w' k → k ≠ j → w'.typerAt k = w.typerAt k
  returned : ∀ {k}, k ≠ j → log'.returned k = log.returned k

private theorem WellKept.change {log' : Log} {j : Nat} (kept : WellKept w log)
    (others : KeepsOthers w log w' log' j) (numbered : (w'.typerAt j).WellNumbered)
    (older : ∀ t ∈ log'.returned j, t.NamesOlder (w'.typerAt j).counter)
    (adopted : ∀ k ∈ log'.adopted, k < w'.benches.size) (copies : CopiesAhead w' log') :
    WellKept w' log' := by
  refine ⟨adopted, fun {k} usedK => ?_, fun {i k} usedI usedK shared => ?_, fun {k} usedK => ?_,
    fun {k} usedK => ?_, copies⟩
  · by_cases here : k = j
    · exact here ▸ others.inside
    · rw [others.board usedK here]
      exact Nat.lt_of_lt_of_le (kept.board (others.used usedK here)) others.more
  · by_cases hereI : i = j
    · by_cases hereK : k = j
      · rw [hereI, hereK]
      · rw [hereI, others.board usedK hereK] at shared
        exact absurd shared.symm (others.own usedK hereK)
    · by_cases hereK : k = j
      · rw [hereK, others.board usedI hereI] at shared
        exact absurd shared (others.own usedI hereI)
      · rw [others.board usedI hereI, others.board usedK hereK] at shared
        exact kept.apart (others.used usedI hereI) (others.used usedK hereK) shared
  · by_cases here : k = j
    · exact here ▸ numbered
    · rw [others.typer usedK here]
      exact kept.numbered (others.used usedK here)
  · by_cases here : k = j
    · exact here ▸ older
    · rw [others.typer usedK here, others.returned here]
      exact kept.older (others.used usedK here)

private theorem WellKept.board_ne (kept : WellKept w log) (used : log.InUse w w.current) {k : Nat}
    (usedK : log.InUse w k) (other : k ≠ w.current) :
    (w.bench k).board ≠ (w.bench w.current).board :=
  fun shared => other (kept.apart usedK used shared)

/-! Work at the current bench. Copies that were made there do not count as such from then on. -/

private theorem inUse_of_updates (updates : Updates w typer w') {terms : List Term} {k : Nat}
    (used : ((log.changed w.current).returns w.current terms).InUse w' k) : log.InUse w k :=
  ⟨updates.count ▸ used.1, used.2⟩

private theorem WellKept.keepsOthers_updates (kept : WellKept w log) (used : log.InUse w w.current)
    (updates : Updates w typer w') (terms : List Term) :
    KeepsOthers w log w' ((log.changed w.current).returns w.current terms) w.current where
  more := updates.more
  inside := updates.inside
  used usedK _ := inUse_of_updates updates usedK
  board _ other := by rw [updates.benches _ other]
  own usedK other := by
    have before := inUse_of_updates updates usedK
    have known := kept.board before
    rcases updates.place with same | new
    · rw [same]
      exact kept.board_ne used before other
    · omega
  typer usedK other := by
    have before := inUse_of_updates updates usedK
    exact updates.typerAt other (kept.board before) (kept.board_ne used before other)
  returned other := Log.returned_returns_of_ne other

private theorem WellKept.copiesAhead_updates (kept : WellKept w log) (updates : Updates w typer w')
    (le : w.typer.counter ≤ typer.counter) (terms : List Term) :
    CopiesAhead w' ((log.changed w.current).returns w.current terms) := by
  have counter {k : Nat} (other : k ≠ w.current) :
      (w'.typerAt k).counter = (w.typerAt k).counter :=
    congrArg Bench.counter (updates.benches k other)
  intro k j changed
  obtain ⟨lent, other⟩ := Log.original_changed.mp changed
  obtain ⟨used, there, differs, behind⟩ := kept.copies lent
  refine ⟨⟨updates.count.symm ▸ used.1, used.2⟩, updates.count.symm ▸ there, differs, ?_⟩
  rw [counter other]
  by_cases here : k = w.current
  · rw [here] at behind ⊢
    rw [updates.becomes]
    exact Nat.le_trans behind le
  · rwa [counter here]

private theorem WellKept.updates (kept : WellKept w log) (used : log.InUse w w.current)
    (updates : Updates w typer w') (learned : Learned .namesOlder w.typer typer) {terms : List Term}
    (older : ∀ t ∈ terms, t.NamesOlder typer.counter) :
    WellKept w' ((log.changed w.current).returns w.current terms) := by
  refine kept.change (kept.keepsOthers_updates used updates terms) ?_ (fun t member => ?_)
    (fun k member => updates.count.symm ▸ kept.adopted k member)
    (kept.copiesAhead_updates updates learned.counter terms)
  · rw [updates.becomes]
    exact learned.wellNumbered (kept.numbered used)
  · rw [updates.becomes]
    rw [Log.returned_returns_self] at member
    rcases List.mem_append.mp member with old | new
    · exact (kept.older used t old).mono learned.counter
    · exact older t new

private theorem WellKept.read (kept : WellKept w log) (used : log.InUse w w.current) {t : Term}
    (older : t.NamesOlder w.typer.counter) :
    WellKept w (log.returns w.current [w.typer.read t]) := by
  refine { kept with older := fun {k} usedK u member => ?_ }
  by_cases here : k = w.current
  · subst here
    rw [Log.returned_returns_self] at member
    rcases List.mem_append.mp member with old | new
    · exact kept.older used u old
    · rw [List.mem_singleton.mp new]
      exact Typer.namesOlder_read (kept.numbered used).sound older
  · rw [Log.returned_returns_of_ne here] at member
    exact kept.older usedK u member

/-! A copy gets a bench and a board of its own. -/

section Copy

private theorem size_copy : w.copy.2.benches.size = w.copy.1 + 1 := Array.size_push ..

private theorem bench_copy_of_ne {k : Nat} (other : k ≠ w.copy.1) : w.copy.2.bench k = w.bench k :=
  (w.bench_copy k).trans (if_neg other)

private theorem inUse_of_copy {k : Nat} (usedK : (log.copied w.current w.copy.1).InUse w.copy.2 k)
    (other : k ≠ w.copy.1) : log.InUse w k := by
  have there : k < w.copy.1 + 1 := size_copy ▸ usedK.1
  have before : k < w.copy.1 := by omega
  exact ⟨before, usedK.2⟩

private theorem WellKept.keepsOthers_copy (kept : WellKept w log) :
    KeepsOthers w log w.copy.2 (log.copied w.current w.copy.1) w.copy.1 := by
  have boards : w.copy.2.boards.size = w.boards.size + 1 := Array.size_push ..
  have new : (w.copy.2.bench w.copy.1).board = w.boards.size := by
    rw [bench_copy]
    exact congrArg Bench.board (if_pos rfl)
  refine ⟨by omega, by omega, inUse_of_copy, fun _ other => by rw [bench_copy_of_ne other],
    fun usedK other => ?_, fun usedK other => ?_, fun other => Log.returned_copied_of_ne other⟩
  · rw [new]
    exact Nat.ne_of_lt (kept.board (inUse_of_copy usedK other))
  · exact typerAt_copy_of_ne other (kept.board (inUse_of_copy usedK other))

private theorem WellKept.copiesAhead_copy (kept : WellKept w log) (used : log.InUse w w.current) :
    CopiesAhead w.copy.2 (log.copied w.current w.copy.1) := by
  have counter {k : Nat} (other : k ≠ w.copy.1) :
      (w.copy.2.typerAt k).counter = (w.typerAt k).counter :=
    congrArg Bench.counter (bench_copy_of_ne other)
  have there {k : Nat} (before : k < w.benches.size) : k < w.copy.2.benches.size :=
    size_copy ▸ Nat.lt_succ_of_lt before
  intro k j lent
  by_cases here : k = w.copy.1
  · subst here
    rw [Log.original_copied_self] at lent
    cases lent
    have other : w.current ≠ w.copy.1 := Nat.ne_of_lt used.1
    have unadopted : w.copy.1 ∉ log.adopted :=
      fun adopted => Nat.lt_irrefl _ (kept.adopted _ adopted)
    refine ⟨⟨size_copy ▸ Nat.lt_succ_self _, unadopted⟩, there used.1, other, ?_⟩
    exact Nat.le_of_eq ((counter other).trans (congrArg Typer.counter w.typerAt_copy).symm)
  · rw [Log.original_copied_of_ne here] at lent
    obtain ⟨usedK, before, differs, behind⟩ := kept.copies lent
    refine ⟨⟨there usedK.1, usedK.2⟩, there before, differs, ?_⟩
    rwa [counter here, counter (Nat.ne_of_lt before)]

private theorem WellKept.copy (kept : WellKept w log) (used : log.InUse w w.current) :
    WellKept w.copy.2 (log.copied w.current w.copy.1) := by
  refine kept.change kept.keepsOthers_copy ?_ (fun t member => ?_)
    (fun k member => size_copy ▸ Nat.lt_succ_of_lt (kept.adopted k member))
    (kept.copiesAhead_copy used)
  · rw [typerAt_copy]
    exact kept.numbered used
  · rw [typerAt_copy]
    rw [Log.returned_copied_self] at member
    exact kept.older used t member

end Copy

/-! The copy that is adopted is ahead, since its original was left alone. It is not in use from then
on. -/

section Adoption

variable {k : Nat}

private theorem size_adopt : (w.adopt k).benches.size = w.benches.size := Array.size_setIfInBounds

private theorem inUse_of_adopt {i : Nat} (usedI : (log.adopts w.current k).InUse (w.adopt k) i) :
    log.InUse w i ∧ i ≠ k := by
  obtain ⟨differs, unadopted⟩ := not_or.mp (mt List.mem_cons.mpr usedI.2)
  exact ⟨⟨size_adopt ▸ usedI.1, unadopted⟩, differs⟩

private theorem WellKept.keepsOthers_adopt (kept : WellKept w log) (used : log.InUse w w.current)
    (usedK : log.InUse w k) :
    KeepsOthers w log (w.adopt k) (log.adopts w.current k) w.current := by
  have here : (w.adopt k).bench w.current = w.bench k :=
    (bench_adopt used.1 k _).trans (if_pos rfl)
  have old {i : Nat} (other : i ≠ w.current) : (w.adopt k).bench i = w.bench i :=
    (bench_adopt used.1 k i).trans (if_neg other)
  refine ⟨Nat.le_refl _, here ▸ kept.board usedK, fun usedI _ => (inUse_of_adopt usedI).1,
    fun _ other => by rw [old other], fun usedI _ => ?_,
    fun _ other => typerAt_adopt_of_ne used.1 k other,
    fun other => Log.returned_returns_of_ne other⟩
  rw [here]
  obtain ⟨before, differs⟩ := inUse_of_adopt usedI
  exact fun shared => differs (kept.apart before usedK shared)

private theorem WellKept.copiesAhead_adopt (kept : WellKept w log) (used : log.InUse w w.current)
    (lent : log.original k = some w.current) :
    CopiesAhead (w.adopt k) (log.adopts w.current k) := by
  obtain ⟨-, -, -, ahead⟩ := kept.copies lent
  intro i j changed
  obtain ⟨lentI, other⟩ := Log.original_changed.mp changed
  obtain ⟨usedI, there, differs, behind⟩ := kept.copies lentI
  have unadopted : i ∉ k :: log.adopted := by
    refine mt List.mem_cons.mp (not_or.mpr ⟨?_, usedI.2⟩)
    rintro rfl
    exact other (Option.some.inj (lentI.symm.trans lent))
  refine ⟨⟨size_adopt.symm ▸ usedI.1, unadopted⟩, size_adopt.symm ▸ there, differs, ?_⟩
  rw [typerAt_adopt_of_ne used.1 k other]
  by_cases current : i = w.current
  · rw [current] at behind ⊢
    rw [typerAt_adopt used.1]
    exact Nat.le_trans behind ahead
  · rwa [typerAt_adopt_of_ne used.1 k current]

private theorem WellKept.adopt (kept : WellKept w log) (used : log.InUse w w.current)
    (lent : log.original k = some w.current) : WellKept (w.adopt k) (log.adopts w.current k) := by
  obtain ⟨usedK, -, -, ahead⟩ := kept.copies lent
  refine kept.change (kept.keepsOthers_adopt used usedK) ?_ (fun t member => ?_)
    (fun i member => ?_) (kept.copiesAhead_adopt used lent)
  · rw [typerAt_adopt used.1]
    exact kept.numbered usedK
  · rw [typerAt_adopt used.1]
    rcases List.mem_append.mp (Log.returned_returns_self ▸ member) with own | copy
    · exact (kept.older used t own).mono ahead
    · exact kept.older usedK t copy
  · rw [size_adopt]
    rcases List.mem_cons.mp member with rfl | earlier
    · exact usedK.1
    · exact kept.adopted i earlier

end Adoption

private theorem Run.wellKept (run : Run w log) : WellKept w log := by
  induction run with
  | start => exact wellKept_start
  | performed report op _ used given older ih =>
    obtain ⟨typer, updates, learned, returned⟩ :=
      updates_perform given report (ih.inPlace used) (ih.numbered used) older
    exact ih.updates used updates learned returned
  | read _ used older ih => exact ih.read used older
  | copied _ used ih => exact ih.copy used
  | used k _ ih => exact ⟨ih.adopted, ih.board, ih.apart, ih.numbered, ih.older, ih.copies⟩
  | adopted _ used lent ih => exact ih.adopt used lent

end

/-- At every bench in use, after any run: all names in the form of made-up ones in what the typer
knows and in the terms that were returned have at most the number of its counter, so the next fresh
variable is none of them. The same is true of the typer and the outstanding goals of every state
that a search from there visits. -/
theorem names_stay_fresh {w : Workshop} {log : Log} (run : Run w log) {k : Nat}
    (used : log.InUse w k) :
    (w.typerAt k).AheadOf (log.returned k) ∧
      ∀ {β : Type} (registry : Registry β) (goals : List Term), registry.NamesGiven →
        (∀ g ∈ goals, g.NamesOlder (w.typerAt k).counter) →
        ∀ state, Visited registry (w.typerAt k) goals state →
          state.typer.AheadOf (state.goals.flatMap Goal.terms) := by
  have kept := run.wellKept
  have numbered := kept.numbered used
  refine ⟨numbered.aheadOf (kept.older used), ?_⟩
  intro β registry goals given older state visited
  exact Resolution.aheadOf_of_visited given numbered older visited

/-- A copy compares two schemes, which takes two names, and is adopted. Its original goes on to open
a quantifier and to resolve a goal, and then a unification fails. A search from there opens a state
with a name of its own. -/
theorem names_stay_fresh_adopted :
    let a : TypeVar := ⟨"a"⟩
    let b : TypeVar := ⟨"b"⟩
    let made (n : Nat) : Term := .use (.numbered .unification n)
    let int : Term := .named "int"
    let list (t : Term) : Term := .con "list" [t]
    let pair (t u : Term) : Term := .con "pair" [t, u]
    let shown (t : Term) : Term := .con "show" [t]
    let instances : Instances :=
      [⟨⟨[a], [shown (.use a)], shown (list (.use a))⟩, fun _ => .ok (.label "list")⟩,
        ⟨⟨[], [], shown int⟩, fun _ => .ok (.label "int")⟩]
    let next (w : Workshop) (op : Operation) : Workshop := (w.perform instances .quiet op).2
    let first := next .start (.fresh .unification)
    let compared := next (first.copy.2.use 1) (.unify (.scheme .every [a] (pair (.use a) (made 1)))
      (.scheme .every [b] (pair (.use b) int)))
    let opened := next ((compared.use 0).adopt 1) (.instantiate .unification [a] [list (.use a)])
    let resolved := next opened (.resolve 10 [shown (list (made 4))])
    let w := next resolved (.unify (pair (made 1) (made 4)) (pair int (list int)))
    let goals := [shown (list (made 5))]
    ∃ log, Run w log ∧ log.InUse w 0 ∧ (w.typerAt 0).counter = 5 ∧
      (w.typerAt 0).read (pair (made 1) (made 4)) = pair int int ∧
      log.returned 0 = [made 1, made 1, list (made 4)] ∧ (w.typerAt 0).AheadOf (log.returned 0) ∧
      Registry.NamesGiven instances ∧ (∀ g ∈ goals, g.NamesOlder (w.typerAt 0).counter) ∧
      ∃ state, Visited instances (w.typerAt 0) goals state ∧ state.typer.counter = 6 ∧
        state.typer.AheadOf (state.goals.flatMap Goal.terms) := by
  intro a b made int list pair shown instances next first compared opened resolved w goals
  have plainA : ¬a.MadeUp := TypeVar.not_madeUp_of_belongsTo fun family => by
    cases family <;> decide
  have plainB : ¬b.MadeUp := TypeVar.not_madeUp_of_belongsTo fun family => by
    cases family <;> decide
  have olderA := TypeVar.older_of_not_madeUp plainA
  have olderB := TypeVar.older_of_not_madeUp plainB
  have olderMade {n c : Nat} (le : n ≤ c) : (TypeVar.numbered .unification n).Older c :=
    TypeVar.older_numbered .unification le
  have given : Registry.NamesGiven instances := by
    simp [Registry.NamesGiven, instances, shown, list, int, Term.named, Rule.terms, Term.names,
      Term.namesAll, plainA]
  have openedAt : opened.typer.counter = 4 := by decide +kernel
  have resolvedAt : resolved.typer.counter = 5 := by decide +kernel
  have endsAt : (w.typerAt 0).counter = 5 := by decide +kernel
  have olderSchemes : ∀ t ∈ [Term.scheme .every [a] (pair (.use a) (made 1)),
      .scheme .every [b] (pair (.use b) int)], t.NamesOlder 1 := by
    simp [pair, made, int, Term.named, Term.namesOlder_scheme, Term.namesOlder_con,
      Term.namesOlder_use, olderA, olderB, olderMade]
  have olderList : ∀ t ∈ [list (.use a)],
      t.NamesOlder ((compared.use 0).adopt 1).typer.counter := by
    simp [list, Term.namesOlder_con, Term.namesOlder_use, olderA]
  have olderGoal : ∀ t ∈ [shown (list (made 4))], t.NamesOlder opened.typer.counter := by
    rw [openedAt]
    simp [shown, list, made, Term.namesOlder_con, Term.namesOlder_use, olderMade]
  have olderPairs : ∀ t ∈ [pair (made 1) (made 4), pair int (list int)],
      t.NamesOlder resolved.typer.counter := by
    rw [resolvedAt]
    simp [pair, made, int, list, Term.named, Term.namesOlder_con, Term.namesOlder_use, olderMade]
  have older : ∀ g ∈ goals, g.NamesOlder (w.typerAt 0).counter := by
    rw [endsAt]
    simp [goals, shown, list, made, Term.namesOlder_con, Term.namesOlder_use, olderMade]
  have runFirst : Run first _ :=
    .performed .quiet _ .start (by simp [Log.InUse, Log.empty, start]) given
      (by simp [Operation.supplied])
  have runCopied : Run (first.copy.2.use 1) _ :=
    .used 1 (.copied runFirst ⟨by decide +kernel, by decide +kernel⟩)
  have runCompared : Run compared _ :=
    .performed .quiet _ runCopied ⟨by decide +kernel, by decide +kernel⟩ given olderSchemes
  have runAdopted : Run ((compared.use 0).adopt 1) _ :=
    .adopted (.used 0 runCompared) ⟨by decide +kernel, by decide +kernel⟩ (by decide +kernel)
  have runOpened : Run opened _ :=
    .performed .quiet _ runAdopted ⟨by decide +kernel, by decide +kernel⟩ given olderList
  have runResolved : Run resolved _ :=
    .performed .quiet _ runOpened ⟨by decide +kernel, by decide +kernel⟩ given olderGoal
  have run : Run w _ :=
    .performed .quiet _ runResolved ⟨by decide +kernel, by decide +kernel⟩ given olderPairs
  have searched : ((Registry.explore instances 1 (w.typerAt 0) goals).run' .quiet).map
      (fun ending => ending.states.map fun state => state.typer.counter) = some [6] := by
    decide +kernel
  obtain ⟨ahead, inside⟩ := names_stay_fresh run (k := 0) ⟨by decide +kernel, by decide +kernel⟩
  refine ⟨_, run, ⟨by decide +kernel, by decide +kernel⟩, endsAt, by decide +kernel,
    by decide +kernel, ahead, given, older, ?_⟩
  obtain ⟨ending, report, explored, numbers⟩ := exists_ok_of_run' searched
  obtain ⟨state, member, number⟩ := List.mem_map.mp (numbers ▸ List.mem_singleton_self 6)
  have visited := Resolution.visited_of_explore explored state member
  exact ⟨state, visited, number, inside instances goals given older state visited⟩

end Workshop

end TypedCalls
