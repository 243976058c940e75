import Mathlib.Tactic.Common
import TypedCalls.Proofs.Call.Steps

/-!
The leaves of the full exploration, and what the search reports about them.

`Leaves` relates a state to the outcomes at the ends of all ways on from it, in depth-first order.
The search stops at the first ambiguity and keeps only the best outcome so far. `Sums` says what that
outcome has to be, given the leaves. Keeping the better of two outcomes respects it (`SoFar.joined`),
hence so do the choice between several states (`sums_best`) and the search (`summed_search`).
-/

set_option autoImplicit false

namespace TypedCalls

variable {α : Type}

/-- The comparison is an equivalence among the values that are meant. -/
structure EqualityOn {γ : Type} [BEq γ] (good : γ → Prop) : Prop where
  refl : ∀ a, good a → (a == a) = true
  symm : ∀ a b, good a → good b → (a == b) = true → (b == a) = true
  trans : ∀ a b c, good a → good b → good c → (a == b) = true → (b == c) = true →
    (a == c) = true

namespace EqualityOn

variable {γ : Type} [BEq γ] {good : γ → Prop}

theorem of_lawful (γ : Type) [BEq γ] [LawfulBEq γ] : EqualityOn fun _ : γ => True :=
  ⟨fun _ _ => beq_self_eq_true _, fun _ _ _ _ => BEq.symm, fun _ _ _ _ _ _ => BEq.trans⟩

private theorem list (equality : EqualityOn good) :
    EqualityOn fun xs : List γ => ∀ x ∈ xs, good x := by
  have cons : ∀ (x y : γ) (xs ys : List γ),
      (x :: xs == y :: ys) = true ↔ (x == y) = true ∧ (xs == ys) = true := by
    intro x y xs ys
    rw [List.cons_beq_cons, Bool.and_eq_true_iff]
  refine ⟨fun xs all => ?_, fun xs ys left right same => ?_,
    fun xs ys zs left middle right first second => ?_⟩
  · induction xs with
    | nil => rfl
    | cons x xs ih =>
      obtain ⟨here, there⟩ := List.forall_mem_cons.mp all
      exact (cons x x xs xs).mpr ⟨equality.refl x here, ih there⟩
  · induction xs generalizing ys with
    | nil =>
      cases ys with
      | nil => rfl
      | cons y ys => cases same
    | cons x xs ih =>
      cases ys with
      | nil => cases same
      | cons y ys =>
        obtain ⟨x_good, xs_good⟩ := List.forall_mem_cons.mp left
        obtain ⟨y_good, ys_good⟩ := List.forall_mem_cons.mp right
        obtain ⟨heads, tails⟩ := (cons x y xs ys).mp same
        exact (cons y x ys xs).mpr
          ⟨equality.symm x y x_good y_good heads, ih ys xs_good ys_good tails⟩
  · induction xs generalizing ys zs with
    | nil =>
      cases ys with
      | nil => exact second
      | cons y ys => cases first
    | cons x xs ih =>
      cases ys with
      | nil => cases first
      | cons y ys =>
        cases zs with
        | nil => cases second
        | cons z zs =>
          obtain ⟨x_good, xs_good⟩ := List.forall_mem_cons.mp left
          obtain ⟨y_good, ys_good⟩ := List.forall_mem_cons.mp middle
          obtain ⟨z_good, zs_good⟩ := List.forall_mem_cons.mp right
          obtain ⟨xy, xys⟩ := (cons x y xs ys).mp first
          obtain ⟨yz, yzs⟩ := (cons y z ys zs).mp second
          exact (cons x z xs zs).mpr ⟨equality.trans x y z x_good y_good z_good xy yz,
            ih ys zs xs_good ys_good zs_good xys yzs⟩

private theorem slot (equality : EqualityOn good) :
    EqualityOn fun slot : String × γ => good slot.2 := by
  have pair : ∀ p q : String × γ, (p == q) = true ↔ p.1 = q.1 ∧ (p.2 == q.2) = true := by
    intro p q
    rw [show (p == q) = (p.1 == q.1 && p.2 == q.2) from rfl, Bool.and_eq_true_iff, beq_iff_eq]
  refine ⟨fun p good => ?_, fun p q left right same => ?_,
    fun p q r left middle right first second => ?_⟩
  · exact (pair p p).mpr ⟨rfl, equality.refl p.2 good⟩
  · obtain ⟨names, values⟩ := (pair p q).mp same
    exact (pair q p).mpr ⟨names.symm, equality.symm p.2 q.2 left right values⟩
  · obtain ⟨names, values⟩ := (pair p q).mp first
    obtain ⟨names', values'⟩ := (pair q r).mp second
    exact (pair p r).mpr ⟨names.trans names',
      equality.trans p.2 q.2 r.2 left middle right values values'⟩

theorem assignment [BEq α] {good : α → Prop} (equality : EqualityOn good) :
    EqualityOn (Assignment.Holds good) :=
  equality.list.slot.list

end EqualityOn

def Outcome.assignment? : Outcome α → Option (Assignment α)
  | .success assignment => some assignment
  | _ => none

namespace Matching

mutual

/-- The outcomes at the ends of all ways on from a state, in depth-first order. -/
inductive Leaves (formals : List Formal) : MatchState α → List (Outcome α) → Prop
  | leaf {state : MatchState α} {outcome : Outcome α}
      (here : state.expand formals = .leaf outcome) : Leaves formals state [outcome]
  | onward {state next : MatchState α} {leaves : List (Outcome α)}
      (here : state.expand formals = .onward next) (below : Leaves formals next leaves) :
      Leaves formals state leaves
  | choice {state : MatchState α} {name : String} {states : List (MatchState α)}
      {leaves : List (Outcome α)} (here : state.expand formals = .choice name states)
      (below : LeavesAll formals states leaves) : Leaves formals state leaves

/-- The outcomes at the ends of all ways on from several states. -/
inductive LeavesAll (formals : List Formal) : List (MatchState α) → List (Outcome α) → Prop
  | nil : LeavesAll formals [] []
  | cons {state : MatchState α} {states : List (MatchState α)} {leaves others : List (Outcome α)}
      (first : Leaves formals state leaves) (rest : LeavesAll formals states others) :
      LeavesAll formals (state :: states) (leaves ++ others)

end

mutual

theorem Leaves.unique {formals : List Formal} {state : MatchState α} {leaves : List (Outcome α)} :
    Leaves formals state leaves → ∀ {others}, Leaves formals state others → others = leaves
  | .leaf here, _, other => by
    cases other with
    | leaf there => cases here.symm.trans there; rfl
    | onward there => cases here.symm.trans there
    | choice there => cases here.symm.trans there
  | .onward here below, _, other => by
    cases other with
    | leaf there => cases here.symm.trans there
    | onward there beneath => cases here.symm.trans there; exact below.unique beneath
    | choice there => cases here.symm.trans there
  | .choice here below, _, other => by
    cases other with
    | leaf there => cases here.symm.trans there
    | onward there => cases here.symm.trans there
    | choice there beneath => cases here.symm.trans there; exact below.unique beneath

theorem LeavesAll.unique {formals : List Formal} {states : List (MatchState α)}
    {leaves : List (Outcome α)} :
    LeavesAll formals states leaves → ∀ {others}, LeavesAll formals states others → others = leaves
  | .nil, _, other => by
    cases other with
    | nil => rfl
  | .cons first rest, _, other => by
    cases other with
    | cons here there => rw [first.unique here, rest.unique there]

end

def complete (leaves : List (Outcome α)) : List (Assignment α) :=
  leaves.filterMap Outcome.assignment?

def FirstWorst (leaves : List (Outcome α)) (o : Outcome α) : Prop :=
  ∃ before after, leaves = before ++ o :: after ∧ (∀ x ∈ before, x.severity < o.severity) ∧
    ∀ x ∈ after, x.severity ≤ o.severity

/-- What an exploration has to report about leaves. A success is the first one, and all others are
alike if the comparison of the values that are meant is an equivalence. -/
inductive Sums [BEq α] (good : α → Prop) (leaves : List (Outcome α)) : Outcome α → Prop
  | success {a : Assignment α} {more : List (Assignment α)} (found : complete leaves = a :: more)
      (alike : EqualityOn good → ∀ b ∈ more, (a == b) = true) : Sums good leaves (.success a)
  | ambiguous {a b : Assignment α} (name : String) (one : a ∈ complete leaves)
      (other : b ∈ complete leaves) (unlike : (a == b) = false) : Sums good leaves (.ambiguous name)
  | failure {o : Outcome α} (nothing : complete leaves = []) (worst : FirstWorst leaves o) :
      Sums good leaves o

variable {formals : List Formal} {good : α → Prop} {leaves others : List (Outcome α)}

private theorem exists_leavesAll {states : List (MatchState α)}
    (each : ∀ state ∈ states, ∃ leaves, Leaves formals state leaves ∧ ∀ x ∈ leaves, x.Proper good) :
    ∃ leaves, LeavesAll formals states leaves ∧ ∀ x ∈ leaves, x.Proper good := by
  induction states with
  | nil => exact ⟨[], .nil, by simp⟩
  | cons state states ih =>
    obtain ⟨⟨leaves, below, proper⟩, others⟩ := List.forall_mem_cons.mp each
    obtain ⟨rest, beneath, proper'⟩ := ih others
    exact ⟨leaves ++ rest, .cons below beneath, List.forall_mem_append.mpr ⟨proper, proper'⟩⟩

private theorem complete_append :
    complete (leaves ++ others) = complete leaves ++ complete others :=
  List.filterMap_append

theorem holds_of_mem_complete (proper : ∀ x ∈ leaves, x.Proper good) {a : Assignment α}
    (member : a ∈ complete leaves) : a.Holds good := by
  obtain ⟨x, among, found⟩ := List.mem_filterMap.mp member
  cases x with
  | success b =>
    cases found
    exact proper _ among
  | missing | tooMany | stray | ambiguous | fault => cases found

theorem assignment?_eq_none (nothing : complete leaves = []) {o : Outcome α} (member : o ∈ leaves) :
    o.assignment? = none :=
  List.filterMap_eq_nil_iff.mp nothing o member

namespace FirstWorst

variable {o : Outcome α}

theorem mem (worst : FirstWorst leaves o) : o ∈ leaves := by
  obtain ⟨before, after, rfl, -, -⟩ := worst
  exact List.mem_append_right _ (List.mem_cons_self ..)

theorem severity_le (worst : FirstWorst leaves o) {x : Outcome α} (member : x ∈ leaves) :
    x.severity ≤ o.severity := by
  obtain ⟨before, after, rfl, milder, most⟩ := worst
  rcases List.mem_append.mp member with early | late
  · exact Nat.le_of_lt (milder x early)
  · rcases List.mem_cons.mp late with rfl | later
    · exact Nat.le_refl _
    · exact most x later

private theorem append_right (worst : FirstWorst leaves o)
    (most : ∀ x ∈ others, x.severity ≤ o.severity) : FirstWorst (leaves ++ others) o := by
  obtain ⟨before, after, rfl, milder, rest⟩ := worst
  refine ⟨before, after ++ others, by simp, milder, ?_⟩
  exact List.forall_mem_append.mpr ⟨rest, most⟩

private theorem append_left (worst : FirstWorst others o)
    (milder : ∀ x ∈ leaves, x.severity < o.severity) : FirstWorst (leaves ++ others) o := by
  obtain ⟨before, after, rfl, less, rest⟩ := worst
  refine ⟨leaves ++ before, after, by simp, ?_, rest⟩
  exact List.forall_mem_append.mpr ⟨milder, less⟩

end FirstWorst

private theorem better_of_failure {o case : Outcome α} (failed : case.assignment? = none) :
    better o case = decide (o.severity < case.severity) := by
  cases case with
  | success => cases failed
  | missing | tooMany | stray | ambiguous | fault => rfl

section Joining

variable [BEq α]

def joined (name : String) : Option (Outcome α) → Outcome α → Outcome α
  | none, case => case
  | some (.success a), .success b => if a == b then .success a else .ambiguous name
  | some (.success a), _ => .success a
  | some failure, case => if better failure case then case else failure

private theorem joined_of_success {name : String} {a : Assignment α} {case : Outcome α}
    (failed : case.assignment? = none) : joined name (some (.success a)) case = .success a := by
  cases case with
  | success => cases failed
  | missing | tooMany | stray | ambiguous | fault => rfl

private theorem joined_of_failure {name : String} {o case : Outcome α}
    (failed : o.assignment? = none) :
    joined name (some o) case = if better o case then case else o := by
  cases o with
  | success => cases failed
  | missing | tooMany | stray | ambiguous | fault => rfl

private theorem Sums.proper {o : Outcome α} (sums : Sums good leaves o)
    (proper : ∀ x ∈ leaves, x.Proper good) : o.Proper good ∨ ∃ name, o = .ambiguous name := by
  cases sums with
  | success found =>
    exact .inl (holds_of_mem_complete proper (found ▸ List.mem_cons_self ..))
  | ambiguous name => exact .inr ⟨name, rfl⟩
  | failure _ worst => exact .inl (proper _ worst.mem)

private theorem Sums.of_ambiguous {name : String} (sums : Sums good leaves (.ambiguous name))
    (proper : ∀ x ∈ leaves, x.Proper good) {all : List (Outcome α)}
    (more : ∀ a ∈ complete leaves, a ∈ complete all) : Sums good all (.ambiguous name) := by
  cases sums with
  | ambiguous _ one other unlike => exact .ambiguous name (more _ one) (more _ other) unlike
  | failure _ worst => exact False.elim (proper _ worst.mem)

private theorem sums_singleton (o : Outcome α) : Sums good [o] o := by
  cases o with
  | success a =>
    have found : complete [.success a] = [a] := rfl
    exact .success found (by simp)
  | missing | tooMany | stray | ambiguous | fault =>
    exact .failure rfl ⟨[], [], rfl, by simp, by simp⟩

private theorem sums_failures {o o' : Outcome α} (nothing : complete leaves = [])
    (worst : FirstWorst leaves o) (nothing' : complete others = [])
    (worst' : FirstWorst others o') :
    Sums good (leaves ++ others) (if o.severity < o'.severity then o' else o) := by
  have neither : complete (leaves ++ others) = [] := by
    rw [complete_append, nothing, nothing', List.nil_append]
  by_cases worse : o.severity < o'.severity
  · rw [if_pos worse]
    refine .failure neither (worst'.append_left fun x member => ?_)
    exact Nat.lt_of_le_of_lt (worst.severity_le member) worse
  · rw [if_neg worse]
    refine .failure neither (worst.append_right fun x member => ?_)
    exact Nat.le_trans (worst'.severity_le member) (Nat.le_of_not_lt worse)

private theorem sums_successes (proper : ∀ x ∈ leaves, x.Proper good)
    (proper' : ∀ x ∈ others, x.Proper good) {a b : Assignment α} {more more' : List (Assignment α)}
    (found : complete leaves = a :: more)
    (alike : EqualityOn good → ∀ c ∈ more, (a == c) = true) (found' : complete others = b :: more')
    (alike' : EqualityOn good → ∀ c ∈ more', (b == c) = true) (name : String) :
    Sums good (leaves ++ others) (if a == b then .success a else .ambiguous name) := by
  have a_good := holds_of_mem_complete proper (found ▸ List.mem_cons_self ..)
  have b_good := holds_of_mem_complete proper' (found' ▸ List.mem_cons_self ..)
  have both : complete (leaves ++ others) = a :: (more ++ b :: more') := by
    rw [complete_append, found, found']
    rfl
  cases same : a == b with
  | true =>
    rw [if_pos rfl]
    refine .success both fun equality c member => ?_
    rcases List.mem_append.mp member with early | late
    · exact alike equality c early
    · rcases List.mem_cons.mp late with rfl | later
      · exact same
      · have c_good := holds_of_mem_complete proper' (found' ▸ List.mem_cons_of_mem _ later)
        exact equality.assignment.trans a b c a_good b_good c_good same (alike' equality c later)
  | false =>
    rw [if_neg Bool.false_ne_true]
    exact .ambiguous name (both ▸ List.mem_cons_self ..)
      (both ▸ List.mem_cons_of_mem _ (List.mem_append_right _ (List.mem_cons_self ..))) same

def SoFar (good : α → Prop) (leaves : List (Outcome α)) : Option (Outcome α) → Prop
  | none => leaves = []
  | some o => Sums good leaves o ∧ o.Proper good

private theorem SoFar.proper {sofar : Option (Outcome α)} (before : SoFar good leaves sofar) :
    ∀ o ∈ sofar, o.Proper good := by
  rintro o rfl
  exact before.2

theorem SoFar.joined (proper : ∀ x ∈ leaves, x.Proper good)
    (proper' : ∀ x ∈ others, x.Proper good) {sofar : Option (Outcome α)} {case : Outcome α}
    (before : SoFar good leaves sofar) (sums : Sums good others case) (fine : case.Proper good)
    (name : String) : Sums good (leaves ++ others) (joined name sofar case) := by
  cases sofar with
  | none =>
    obtain rfl : leaves = [] := before
    exact sums
  | some o =>
    obtain ⟨sums₀, fine₀⟩ := before
    cases sums₀ with
    | ambiguous => exact fine₀.elim
    | @success a more found alike =>
      cases sums with
      | ambiguous => exact fine.elim
      | success found' alike' =>
        exact sums_successes proper proper' found alike found' alike' name
      | failure nothing worst =>
        rw [joined_of_success (assignment?_eq_none nothing worst.mem)]
        have both : complete (leaves ++ others) = a :: more := by
          rw [complete_append, found, nothing, List.append_nil]
        exact .success both alike
    | failure nothing worst =>
      rw [joined_of_failure (assignment?_eq_none nothing worst.mem)]
      cases sums with
      | ambiguous => exact fine.elim
      | @success b more' found' alike' =>
        have both : complete (leaves ++ others) = b :: more' := by
          rw [complete_append, nothing, found', List.nil_append]
        exact .success both alike'
      | failure nothing' worst' =>
        simp only [better_of_failure (assignment?_eq_none nothing' worst'.mem), decide_eq_true_eq]
        exact sums_failures nothing worst nothing' worst'

private theorem best_cons (explore : MatchState α → Outcome α) (name : String)
    {sofar : Option (Outcome α)} {state : MatchState α} (states : List (MatchState α))
    (before : ∀ o ∈ sofar, o.Proper good) (fine : (explore state).Proper good) :
    best explore name sofar (state :: states) =
      match joined name sofar (explore state) with
      | .ambiguous around => .ambiguous around
      | o => best explore name (some o) states := by
  rw [best]
  generalize explore state = case at fine
  cases case with
  | ambiguous | fault => exact False.elim fine
  | success b =>
    cases sofar with
    | none => rfl
    | some o =>
      cases o with
      | ambiguous | fault => exact False.elim (before _ rfl)
      | success a => cases same : a == b <;> simp [joined, same]
      | missing | tooMany | stray => rfl
  | missing | tooMany | stray =>
    cases sofar with
    | none => rfl
    | some o =>
      cases o with
      | ambiguous | fault => exact False.elim (before _ rfl)
      | success a => rfl
      | missing | tooMany | stray =>
        simp only [joined]
        split <;> rfl

private theorem best_cons_of_proper (explore : MatchState α → Outcome α) (name : String)
    {sofar : Option (Outcome α)} {state : MatchState α} (states : List (MatchState α))
    (before : ∀ o ∈ sofar, o.Proper good) (fine : (explore state).Proper good)
    (kept : (joined name sofar (explore state)).Proper good) :
    best explore name sofar (state :: states) =
      best explore name (some (joined name sofar (explore state))) states := by
  rw [best_cons explore name states before fine]
  generalize joined name sofar (explore state) = o at kept
  cases o with
  | ambiguous | fault => exact False.elim kept
  | success | missing | tooMany | stray => rfl

def Summed (formals : List Formal) (good : α → Prop) (state : MatchState α) (o : Outcome α) :
    Prop :=
  ∃ leaves, Leaves formals state leaves ∧ (∀ x ∈ leaves, x.Proper good) ∧ Sums good leaves o

/-- The best outcome of several states reports about all their leaves, although the states behind
an ambiguity are not explored. -/
theorem sums_best {explore : MatchState α → Outcome α} (name : String)
    {states : List (MatchState α)}
    (each : ∀ state ∈ states, Summed formals good state (explore state))
    {sofar : Option (Outcome α)} (past : List (Outcome α)) (proper : ∀ x ∈ past, x.Proper good)
    (before : SoFar good past sofar) (nonempty : sofar.isSome = true ∨ states ≠ []) :
    ∃ leaves, LeavesAll formals states leaves ∧ (∀ x ∈ leaves, x.Proper good) ∧
      Sums good (past ++ leaves) (best explore name sofar states) := by
  induction states generalizing sofar past with
  | nil =>
    obtain ⟨o, rfl⟩ := Option.isSome_iff_exists.mp (nonempty.resolve_right (· rfl))
    refine ⟨[], .nil, by simp, ?_⟩
    rw [List.append_nil]
    exact before.1
  | cons state states ih =>
    obtain ⟨⟨leaves, below, proper', sums⟩, later⟩ := List.forall_mem_cons.mp each
    -- what is left to explore has leaves, whether or not it is explored
    obtain ⟨rest, beneath, proper''⟩ := exists_leavesAll fun s member =>
      let ⟨leaves, below, proper, _⟩ := later s member
      ⟨leaves, below, proper⟩
    have both := List.forall_mem_append.mpr ⟨proper, proper'⟩
    have stops : ∀ around, Sums good (past ++ leaves) (.ambiguous around) →
        best explore name sofar (state :: states) = .ambiguous around →
        ∃ leaves, LeavesAll formals (state :: states) leaves ∧ (∀ x ∈ leaves, x.Proper good) ∧
          Sums good (past ++ leaves) (best explore name sofar (state :: states)) := by
      intro around unlike stopped
      refine ⟨leaves ++ rest, .cons below beneath,
        List.forall_mem_append.mpr ⟨proper', proper''⟩, ?_⟩
      rw [stopped, ← List.append_assoc]
      refine unlike.of_ambiguous both fun a member => ?_
      rw [complete_append]
      exact List.mem_append_left _ member
    rcases sums.proper proper' with fine | ⟨around, found⟩
    · have kept := before.joined proper proper' sums fine name
      rcases kept.proper both with fine' | ⟨around, found⟩
      · have now : SoFar good (past ++ leaves) (some (joined name sofar (explore state))) :=
          ⟨kept, fine'⟩
        obtain ⟨others, beyond, proper₂, sums'⟩ := ih later (past ++ leaves) both now (.inl rfl)
        refine ⟨leaves ++ others, .cons below beyond,
          List.forall_mem_append.mpr ⟨proper', proper₂⟩, ?_⟩
        rw [best_cons_of_proper explore name states before.proper fine fine', ← List.append_assoc]
        exact sums'
      · rw [found] at kept
        refine stops around kept ?_
        rw [best_cons explore name states before.proper fine, found]
    · rw [found] at sums
      refine stops around (sums.of_ambiguous proper' fun a member => ?_) (by rw [best, found])
      rw [complete_append]
      exact List.mem_append_right _ member

theorem summed_search (distinct : (formals.map Formal.name).Nodup) (depth : Nat)
    {state : MatchState α} (order : state.InOrder formals good)
    (deep : state.height formals ≤ depth) :
    Summed formals good state (search formals depth state) := by
  induction depth generalizing state with
  | zero =>
    have positive := state.height_pos formals
    omega
  | succ depth ih =>
    rw [search]
    cases order.follows distinct with
    | leaf o here proper =>
      rw [here]
      exact ⟨[o], .leaf here, by simpa using proper, sums_singleton o⟩
    | onward next here order lower =>
      rw [here]
      obtain ⟨leaves, below, proper, sums⟩ := ih order (by omega)
      exact ⟨leaves, .onward here below, proper, sums⟩
    | choice name states here nonempty order lower =>
      rw [here]
      have each : ∀ next ∈ states, Summed formals good next (search formals depth next) := by
        intro next member
        have less := lower next member
        exact ih (order next member) (by omega)
      have nothing : SoFar good [] (none : Option (Outcome α)) := rfl
      obtain ⟨leaves, below, proper, sums⟩ :=
        sums_best name each [] (by simp) nothing (.inr nonempty)
      exact ⟨leaves, .choice here below, proper, sums⟩

end Joining

end Matching

end TypedCalls
