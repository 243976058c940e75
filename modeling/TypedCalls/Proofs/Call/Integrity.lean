import Mathlib.Tactic.Common
import TypedCalls.Proofs.Call.Verdict

/-!
Matching never fails from within.

Every step of an exploration pays for itself out of the height of the state it leaves
(`ReachedAt.pays`), and the height of the first state is what an exploration may go deep. So no way
through the exploration is cut off, also not the one that moves behind the last parameter without
taking an argument. On the way every state stays in order, so nothing that must never happen does
(`matchArguments_never_faults`).
-/

set_option autoImplicit false

namespace TypedCalls

variable {α : Type}

namespace Matching

/-- The states that an exploration can come to in so many steps, if it stops nowhere early. -/
inductive ReachedAt (formals : List Formal) (first : MatchState α) : Nat → MatchState α → Prop
  | first : ReachedAt formals first 0 first
  | onward {depth : Nat} {state next : MatchState α} (before : ReachedAt formals first depth state)
      (here : state.expand formals = .onward next) : ReachedAt formals first (depth + 1) next
  | choice {depth : Nat} {state next : MatchState α} {name : String} {states : List (MatchState α)}
      (before : ReachedAt formals first depth state)
      (here : state.expand formals = .choice name states) (member : next ∈ states) :
      ReachedAt formals first (depth + 1) next

end Matching

namespace MatchState

/-- What can be counted on at a state: no arity is asked for more values than it has room for, every
name is known, and a parameter that leaves a choice leaves something to choose. -/
structure Unbroken (formals : List Formal) (state : MatchState α) : Prop where
  counted : ∀ f ∈ formals, ∃ left, f.arity.consume (state.taken.get f.name).length = .ok left
  faultless : ∀ broken, state.expand formals ≠ .leaf (.fault broken)
  choosable : ∀ name states, state.expand formals = .choice name states → states ≠ []

variable {formals : List Formal} {good : α → Prop} {state : MatchState α}

private theorem InOrder.unbroken (order : state.InOrder formals good)
    (distinct : (formals.map Formal.name).Nodup) : state.Unbroken formals where
  counted f known := by
    obtain ⟨left, consumed, -, -⟩ := Arity.consume_natCast (order.room f known)
    exact ⟨left, consumed⟩
  faultless broken here := by
    cases order.follows distinct with
    | leaf _ there proper =>
      cases here.symm.trans there
      exact proper
    | onward _ there => cases here.symm.trans there
    | choice _ _ there => cases here.symm.trans there
  choosable name states here := by
    cases order.follows distinct with
    | leaf _ there => cases here.symm.trans there
    | onward _ there => cases here.symm.trans there
    | choice _ _ there nonempty =>
      cases here.symm.trans there
      exact nonempty

end MatchState

namespace Matching

variable {formals : List Formal} {good : α → Prop}

theorem ReachedAt.pays {first state : MatchState α} {depth : Nat}
    (reached : ReachedAt formals first depth state) (order : first.InOrder formals good)
    (distinct : (formals.map Formal.name).Nodup) :
    state.InOrder formals good ∧ depth + state.height formals ≤ first.height formals := by
  induction reached with
  | first => exact ⟨order, Nat.le_of_eq (Nat.zero_add _)⟩
  | onward _ here ih =>
    obtain ⟨now, paid⟩ := ih
    cases now.follows distinct with
    | leaf _ there => cases here.symm.trans there
    | onward _ there after lower =>
      cases here.symm.trans there
      exact ⟨after, by omega⟩
    | choice _ _ there => cases here.symm.trans there
  | choice _ here member ih =>
    obtain ⟨now, paid⟩ := ih
    cases now.follows distinct with
    | leaf _ there => cases here.symm.trans there
    | onward _ there => cases here.symm.trans there
    | choice _ _ there _ after lower =>
      cases here.symm.trans there
      have less := lower _ member
      exact ⟨after _ member, by omega⟩

private theorem height_start (formals : List Formal) (arguments : List (Argument α)) :
    (start formals arguments).height formals = formals.length + arguments.length + 1 := rfl

end Matching

private theorem Outcome.toExcept_ne_fault {good : α → Prop} {o : Outcome α}
    (fine : o.Proper good ∨ ∃ name, o = .ambiguous name) (broken : MatchFault) :
    o.toExcept ≠ .error (.fault broken) := by
  cases o with
  | success | missing | ambiguous => simp [toExcept]
  | tooMany name extra duplicate => cases duplicate <;> simp [toExcept]
  | stray value outOfOrder => cases outOfOrder <;> simp [toExcept]
  | fault broken => simp [Proper] at fine

private theorem matchArguments_cases [BEq α] (formals : List Formal)
    (arguments : List (Argument α)) :
    (∃ names, matchArguments formals arguments = .error (.repeatedParameter names) ∨
        matchArguments formals arguments = .error (.unknown names) ∨
        matchArguments formals arguments = .error (.needsValue names)) ∨
      (formals.map Formal.name).Nodup ∧
        (∀ name, .keyword name ∈ arguments → name ∈ formals.map Formal.name) ∧
        Matching.keywordsWithoutValue arguments = [] := by
  unfold matchArguments
  dsimp only
  split
  · exact .inl ⟨_, .inl rfl⟩
  next distinct =>
  split
  · next known valued =>
    refine .inr ⟨not_not.mp distinct, fun name member => ?_, valued⟩
    have among : name ∈ arguments.filterMap Argument.keyword? :=
      List.mem_filterMap.mpr ⟨_, member, rfl⟩
    simpa using List.filter_eq_nil_iff.mp known name among
  · exact .inl ⟨_, .inr (.inr rfl)⟩
  · exact .inl ⟨_, .inr (.inl rfl)⟩

/-- Whatever the parameters and the arguments, matching answers with an assignment or with one of the
errors that name a mistake in the parameters or in the call. Once the checks on names and keywords
are passed, no way through the exploration is longer than there are parameters and arguments, and
nothing breaks on it. -/
theorem matchArguments_never_faults [BEq α] (formals : List Formal)
    (arguments : List (Argument α)) :
    (∀ broken, matchArguments formals arguments ≠ .error (.fault broken)) ∧
      ((formals.map Formal.name).Nodup →
        (∀ name, .keyword name ∈ arguments → name ∈ formals.map Formal.name) →
        Matching.keywordsWithoutValue arguments = [] →
        ∀ depth state, Matching.ReachedAt formals (Matching.start formals arguments) depth state →
          depth ≤ formals.length + arguments.length ∧ state.Unbroken formals) := by
  have inOrder (declared : ∀ name, .keyword name ∈ arguments → name ∈ formals.map Formal.name)
      (valued : Matching.keywordsWithoutValue arguments = []) :
      (Matching.start formals arguments).InOrder formals fun _ => True :=
    Matching.inOrder_start (fun _ _ => trivial) declared valued
  constructor
  · intro broken
    rcases matchArguments_cases formals arguments with
      ⟨names, refused | refused | refused⟩ | ⟨distinct, declared, valued⟩
    · simp [refused]
    · simp [refused]
    · simp [refused]
    · obtain ⟨o, answer, verdict⟩ := exists_verdict distinct declared valued
      rw [answer]
      have fine := verdict.proper fun x path => path.proper distinct (inOrder declared valued)
      exact Outcome.toExcept_ne_fault fine broken
  · intro distinct declared valued depth state reached
    obtain ⟨order, paid⟩ := reached.pays (inOrder declared valued) distinct
    have positive := state.height_pos formals
    rw [Matching.height_start] at paid
    exact ⟨by omega, order.unbroken distinct⟩

/-- One value for one optional parameter: the way that leaves the parameter empty and then moves
behind the last one is as long as an exploration may be. -/
theorem matchArguments_never_faults_longest :
    let formals : List Formal := [⟨"first", .optional⟩]
    let arguments : List (Argument String) := [.value "x"]
    let last : MatchState String := ⟨.named false, [.value "x"], [("first", [])]⟩
    (∀ broken, matchArguments formals arguments ≠ .error (.fault broken)) ∧
      (formals.map Formal.name).Nodup ∧
      (∀ name, .keyword name ∈ arguments → name ∈ formals.map Formal.name) ∧
      Matching.keywordsWithoutValue arguments = [] ∧
      Matching.ReachedAt formals (Matching.start formals arguments)
        (formals.length + arguments.length) last ∧
      last.Unbroken formals := by
  intro formals arguments last
  have distinct : (formals.map Formal.name).Nodup := by decide
  have declared : ∀ name, .keyword name ∈ arguments → name ∈ formals.map Formal.name := by
    simp [arguments]
  have valued : Matching.keywordsWithoutValue arguments = [] := rfl
  have passed : Matching.ReachedAt formals (Matching.start formals arguments) 1
      ⟨.positional 1, [.value "x"], [("first", [])]⟩ :=
    .choice .first rfl (List.mem_cons_self ..)
  have reached : Matching.ReachedAt formals (Matching.start formals arguments) 2 last :=
    .onward passed rfl
  obtain ⟨answered, unbroken⟩ := matchArguments_never_faults formals arguments
  exact ⟨answered, distinct, declared, valued, reached,
    (unbroken distinct declared valued 2 last reached).2⟩

end TypedCalls
