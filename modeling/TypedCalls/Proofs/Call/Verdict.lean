import Mathlib.Tactic.Common
import TypedCalls.Proofs.Call.Splits

/-!
What the search reports about the ways on, however values compare.

Nothing is asked of the comparison here, so equal successes need not be alike, and which of them is
returned is left open. All the same a success is one that some way leads to, an ambiguity stands
between two that differ, and a failure is the most severe of those that the ways lead to
(`verdict_search`). Where all ways agree, so does the search (`Verdict.of_unanimous`).
-/

set_option autoImplicit false

namespace TypedCalls

variable {α : Type}

namespace Matching

theorem Path.proper {formals : List Formal} {good : α → Prop} {state : MatchState α} {o : Outcome α}
    (path : Path formals state o) (distinct : (formals.map Formal.name).Nodup)
    (order : state.InOrder formals good) : o.Proper good := by
  induction path with
  | leaf here =>
    cases order.follows distinct with
    | leaf _ there proper =>
      cases here.symm.trans there
      exact proper
    | onward _ there => cases here.symm.trans there
    | choice _ _ there => cases here.symm.trans there
  | onward here _ ih => exact ih (order.onward distinct here)
  | choice here member _ ih => exact ih (order.choice distinct here member)

variable [BEq α] {ways : Outcome α → Prop} {good : α → Prop}

/-- What an exploration reports about the outcomes that its ways lead to. -/
inductive Verdict (ways : Outcome α → Prop) : Outcome α → Prop
  | success {a : Assignment α} (way : ways (.success a)) : Verdict ways (.success a)
  | ambiguous {a b : Assignment α} (name : String) (one : ways (.success a))
      (other : ways (.success b)) (differ : (a == b) = false) : Verdict ways (.ambiguous name)
  | failure {o : Outcome α} (way : ways o) (nothing : ∀ a, ¬ways (.success a))
      (worst : ∀ x, ways x → x.severity ≤ o.severity) : Verdict ways o

theorem Verdict.of_unanimous {o reported : Outcome α} (verdict : Verdict ways reported)
    (only : ∀ x, ways x → x = o) (reflexive : ∀ a, o = .success a → (a == a) = true) :
    reported = o := by
  cases verdict with
  | success way => exact only _ way
  | failure way => exact only _ way
  | ambiguous name one other differ =>
    cases Outcome.success.inj ((only _ one).trans (only _ other).symm)
    rw [reflexive _ (only _ one).symm] at differ
    cases differ

theorem Verdict.of_failing {reported : Outcome α} (verdict : Verdict ways reported)
    (nothing : ∀ a, ¬ways (.success a)) :
    ways reported ∧ ∀ x, ways x → x.severity ≤ reported.severity := by
  cases verdict with
  | success way => exact absurd way (nothing _)
  | ambiguous _ one => exact absurd one (nothing _)
  | failure way _ worst => exact ⟨way, worst⟩

theorem Verdict.proper {o : Outcome α} (verdict : Verdict ways o)
    (proper : ∀ x, ways x → x.Proper good) : o.Proper good ∨ ∃ name, o = .ambiguous name := by
  cases verdict with
  | success way => exact .inl (proper _ way)
  | ambiguous name => exact .inr ⟨name, rfl⟩
  | failure way => exact .inl (proper _ way)

private theorem Sums.verdict {leaves : List (Outcome α)} {o : Outcome α} (sums : Sums good leaves o)
    (same : ∀ x, x ∈ leaves ↔ ways x) : Verdict ways o := by
  have success (a : Assignment α) : a ∈ complete leaves ↔ ways (.success a) :=
    mem_complete.trans (same _)
  cases sums with
  | @success a more found =>
    have first : a ∈ complete leaves := found ▸ List.mem_cons_self ..
    exact .success ((success a).mp first)
  | @ambiguous a b name one other unlike =>
    exact .ambiguous name ((success a).mp one) ((success b).mp other) unlike
  | failure nothing worst =>
    refine .failure ((same o).mp worst.mem) (fun a way => ?_)
      fun x way => worst.severity_le ((same x).mpr way)
    have among := (success a).mpr way
    rw [nothing] at among
    cases among

theorem verdict_search {formals : List Formal} (distinct : (formals.map Formal.name).Nodup)
    (depth : Nat) {state : MatchState α} (order : state.InOrder formals good)
    (deep : state.height formals ≤ depth) :
    Verdict (Path formals state) (search formals depth state) := by
  obtain ⟨leaves, below, -, sums⟩ := summed_search distinct depth order deep
  exact sums.verdict fun x => below.mem_iff

end Matching

theorem exists_verdict [BEq α] {formals : List Formal} (distinct : (formals.map Formal.name).Nodup)
    {arguments : List (Argument α)}
    (declared : ∀ name, .keyword name ∈ arguments → name ∈ formals.map Formal.name)
    (valued : Matching.keywordsWithoutValue arguments = []) :
    ∃ o, matchArguments formals arguments = o.toExcept ∧
      Matching.Verdict (Matching.Path formals (Matching.start formals arguments)) o := by
  have order : (Matching.start formals arguments).InOrder formals fun _ => True :=
    Matching.inOrder_start (fun _ _ => trivial) declared valued
  refine ⟨_, matchArguments_eq_explore distinct declared valued, ?_⟩
  exact Matching.verdict_search distinct _ order (by simp [MatchState.height, Matching.start])

end TypedCalls
