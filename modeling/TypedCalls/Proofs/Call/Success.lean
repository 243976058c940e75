import TypedCalls.Proofs.Call.Steps
import TypedCalls.Proofs.Succeeding

/-!
Where a success comes from.

Values may be compared by anything here, and parameters may share names. A successful search ends in
a state whose outcome is that success (`search_eq_success`), so no parameter lacks a value that it
needs (`minimum_le_of_matchArguments`).
-/

set_option autoImplicit false

namespace TypedCalls

variable {α : Type}

private theorem Arity.minimum_of_consume {arity left : Arity} {n : Nat}
    (consumed : arity.consume n = .ok left) : left.minimum = arity.minimum - n := by
  unfold consume at consumed
  split at consumed
  · cases consumed
  split at consumed
  · next zero =>
    cases consumed
    omega
  split at consumed
  · cases consumed
    rfl
  · split at consumed
    · cases consumed
    · cases consumed
      rfl

namespace Matching

variable {formals : List Formal}

private theorem best_eq_success [BEq α] {explore : MatchState α → Outcome α} {name : String}
    {sofar : Option (Outcome α)} {states : List (MatchState α)} {a : Assignment α}
    (won : best explore name sofar states = .success a) :
    sofar = some (.success a) ∨ ∃ state ∈ states, explore state = .success a := by
  induction states generalizing sofar with
  | nil =>
    cases sofar with
    | none => cases won
    | some o => exact .inl (congrArg some won)
  | cons state states ih =>
    have inherit {o : Outcome α} (later : best explore name (some o) states = .success a)
        (kept : o = .success a → sofar = some (.success a) ∨ explore state = .success a) :
        sofar = some (.success a) ∨ ∃ next ∈ state :: states, explore next = .success a := by
      rcases ih later with equal | ⟨next, member, here⟩
      · refine (kept (Option.some.inj equal)).imp_right fun here => ?_
        exact ⟨state, List.mem_cons_self .., here⟩
      · exact .inr ⟨next, List.mem_cons_of_mem _ member, here⟩
    rw [best] at won
    split at won
    · cases won
    · cases won
    · split at won
      · exact inherit won .inr
      · split at won
        · exact inherit won fun same => .inl (congrArg some same)
        · cases won
      · exact inherit won fun same => .inl (congrArg some same)
      · next failure _ _ _ =>
        refine inherit won fun same => ?_
        split at same
        · exact .inr same
        · exact .inl (congrArg some same)

theorem search_eq_success [BEq α] {P : MatchState α → Prop}
    (onward : ∀ {state next}, P state → state.expand formals = .onward next → P next)
    (choice : ∀ {state name states}, P state → state.expand formals = .choice name states →
      ∀ next ∈ states, P next)
    {depth : Nat} {state : MatchState α} (start : P state) {a : Assignment α}
    (won : search formals depth state = .success a) :
    ∃ last, P last ∧ last.expand formals = .leaf (.success a) := by
  induction depth generalizing state with
  | zero => cases won
  | succ depth ih =>
    rw [search] at won
    split at won
    · next outcome leaf => exact ⟨state, start, won ▸ leaf⟩
    · next next passed => exact ih (onward start passed) won
    · next name states left =>
      rcases best_eq_success won with before | ⟨next, member, here⟩
      · cases before
      · exact ih (choice start left next member) here

private theorem offer_ne_success {state : MatchState α} {cursor : Cursor} {name : String}
    {least skip : Nat} {greedy : Bool} {values : List α} {a : Assignment α} :
    state.offer formals cursor name least greedy skip values ≠ .leaf (.success a) := by
  intro leaf
  unfold MatchState.offer at leaf
  split at leaf
  · cases leaf
  split at leaf
  · cases leaf
  split at leaf
  · cases leaf
  · dsimp only at leaf
    split at leaf <;> cases leaf

theorem finished_of_expand {state : MatchState α} {a : Assignment α}
    (leaf : state.expand formals = .leaf (.success a)) :
    state.rest = [] ∧ MatchState.finished formals state.taken = .success a := by
  unfold MatchState.expand at leaf
  split at leaf
  · next none => exact ⟨none, Expansion.leaf.inj leaf⟩
  · split at leaf
    · cases leaf
    · split at leaf
      · cases leaf
      · exact absurd leaf offer_ne_success
  · split at leaf
    · split at leaf
      · cases leaf
      · exact absurd leaf offer_ne_success
    · exact absurd leaf offer_ne_success

theorem eq_of_finished {taken a : Assignment α}
    (won : MatchState.finished formals taken = .success a) : a = taken := by
  unfold MatchState.finished at won
  dsimp only at won
  split at won
  · cases won
  · cases won
    rfl
  · cases won

theorem minimum_le_of_finished {taken a : Assignment α}
    (won : MatchState.finished formals taken = .success a) {f : Formal} (known : f ∈ formals) :
    f.arity.minimum ≤ (a.get f.name).length := by
  unfold MatchState.finished at won
  dsimp only at won
  split at won
  · cases won
  · next ran =>
    cases won
    obtain ⟨lacking, aux, reversed⟩ := Except.bind_eq_ok ran
    have none : lacking = [] := List.reverse_eq_nil_iff.mp (Except.ok.inj reversed)
    rcases (mem_of_filterAuxM aux).2 f known with enough | lacks
    · obtain ⟨left, consumed, filled⟩ := Except.map_eq_ok enough
      have rest := Arity.minimum_of_consume consumed
      have nothing : ¬0 < left.minimum := of_decide_eq_false filled
      omega
    · rw [none] at lacks
      cases lacks
  · cases won

end Matching

theorem explore_of_matchArguments [BEq α] {formals : List Formal} {arguments : List (Argument α)}
    {slots : Assignment α} (matched : matchArguments formals arguments = .ok slots) :
    (formals.map Formal.name).Nodup ∧
      (∀ name, .keyword name ∈ arguments → name ∈ formals.map Formal.name) ∧
      Matching.keywordsWithoutValue arguments = [] ∧
      Matching.explore formals arguments = .success slots := by
  unfold matchArguments at matched
  dsimp only at matched
  split at matched
  · cases matched
  next distinct =>
  split at matched
  · next known valued =>
    refine ⟨not_not.mp distinct, fun name member => ?_, valued, ?_⟩
    · have among : name ∈ arguments.filterMap Argument.keyword? :=
        List.mem_filterMap.mpr ⟨_, member, rfl⟩
      simpa using List.filter_eq_nil_iff.mp known name among
    · cases outcome : Matching.explore formals arguments with
      | success a =>
        rw [outcome] at matched
        exact congrArg _ (Except.ok.inj matched)
      | missing | tooMany | stray | ambiguous | fault =>
        rw [outcome] at matched
        cases matched
  · cases matched
  · cases matched

theorem minimum_le_of_matchArguments [BEq α] {formals : List Formal}
    {arguments : List (Argument α)} {slots : Assignment α}
    (matched : matchArguments formals arguments = .ok slots) {f : Formal} (known : f ∈ formals) :
    f.arity.minimum ≤ (slots.get f.name).length := by
  obtain ⟨-, -, -, won⟩ := explore_of_matchArguments matched
  obtain ⟨last, -, leaf⟩ := Matching.search_eq_success (P := fun _ => True)
    (fun _ _ => trivial) (fun _ _ _ _ => trivial) trivial won
  exact Matching.minimum_le_of_finished (Matching.finished_of_expand leaf).2 known

end TypedCalls
