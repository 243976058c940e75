import Mathlib.Tactic.Common
import TypedCalls.Proofs.Call.Leaves

/-!
Matching agrees with an exhaustive exploration.

An ambiguity ends the search early, and a success hides the failures beside it. All the same the
answer is the one that can be read off all leaves of the full exploration (`AnswersLeaves`).
-/

set_option autoImplicit false

namespace TypedCalls

variable {α : Type}

namespace Matching

variable {formals : List Formal} {good : α → Prop} {leaves : List (Outcome α)}

theorem toExcept_of_failure {o : Outcome α} (failed : o.assignment? = none)
    (proper : o.Proper good) :
    ∃ e, o.toExcept = .error e ∧ ∀ name, e ≠ .ambiguous name := by
  cases o with
  | success => cases failed
  | ambiguous | fault => exact False.elim proper
  | missing names => exact ⟨_, rfl, fun name => nofun⟩
  | tooMany | stray =>
    refine ⟨_, rfl, fun name => ?_⟩
    split <;> nofun

section Answers

variable [BEq α]

/-- What matching answers, given the leaves of the full exploration: the first complete one if all
complete ones are equal, an ambiguity if two are not, and else the first of the most severe. -/
structure AnswersLeaves (good : α → Prop) (leaves : List (Outcome α))
    (answer : Except (MatchError α) (Assignment α)) : Prop where
  returns : ∀ a, answer = .ok a ↔
    (complete leaves).head? = some a ∧ ∀ b ∈ complete leaves, (b == a) = true
  returns_equal : ∀ a, a.Holds good →
    ((∃ b, answer = .ok b ∧ (b == a) = true) ↔
      complete leaves ≠ [] ∧ ∀ b ∈ complete leaves, (b == a) = true)
  ambiguous : (∃ name, answer = .error (.ambiguous name)) ↔
    ∃ a ∈ complete leaves, ∃ b ∈ complete leaves, (a == b) = false
  fails : complete leaves = [] → ∃ o, FirstWorst leaves o ∧ answer = o.toExcept

theorem equal_of_equal (equality : EqualityOn good) (proper : ∀ x ∈ leaves, x.Proper good)
    {a b c : Assignment α} (c_good : c.Holds good) (one : a ∈ complete leaves)
    (other : b ∈ complete leaves) (first : (a == c) = true) (second : (b == c) = true) :
    (a == b) = true := by
  have a_good := holds_of_mem_complete proper one
  have b_good := holds_of_mem_complete proper other
  have back := equality.assignment.symm b c b_good c_good second
  exact equality.assignment.trans a c b a_good c_good b_good first back

private theorem answersLeaves_success (equality : EqualityOn good)
    (proper : ∀ x ∈ leaves, x.Proper good) {a : Assignment α} {more : List (Assignment α)}
    (found : complete leaves = a :: more)
    (alike : ∀ b ∈ more, (a == b) = true) : AnswersLeaves good leaves (.ok a) := by
  have first : a ∈ complete leaves := found ▸ List.mem_cons_self ..
  have a_good := holds_of_mem_complete proper first
  have all : ∀ b ∈ complete leaves, (b == a) = true := by
    intro b member
    have b_good := holds_of_mem_complete proper member
    rw [found] at member
    rcases List.mem_cons.mp member with rfl | later
    · exact equality.assignment.refl b b_good
    · exact equality.assignment.symm a b a_good b_good (alike b later)
  have head : (complete leaves).head? = some a := by rw [found]; rfl
  constructor
  · intro c
    constructor
    · rintro ⟨⟩
      exact ⟨head, all⟩
    · rintro ⟨same, -⟩
      rw [Option.some.inj (head.symm.trans same)]
  · intro c c_good
    constructor
    · rintro ⟨_, ⟨⟩, same⟩
      refine ⟨found ▸ List.cons_ne_nil _ _, fun b member => ?_⟩
      exact equality.assignment.trans b a c (holds_of_mem_complete proper member) a_good c_good
        (all b member) same
    · rintro ⟨-, equal⟩
      exact ⟨a, rfl, equal a first⟩
  · constructor
    · rintro ⟨name, ⟨⟩⟩
    · rintro ⟨b, one, c, other, unlike⟩
      have equal := equal_of_equal equality proper a_good one other (all b one) (all c other)
      rw [equal] at unlike
      cases unlike
  · intro nothing
    rw [nothing] at first
    cases first

private theorem answersLeaves_ambiguous (equality : EqualityOn good)
    (proper : ∀ x ∈ leaves, x.Proper good) (name : String) {a b : Assignment α}
    (one : a ∈ complete leaves) (other : b ∈ complete leaves) (unlike : (a == b) = false) :
    AnswersLeaves good leaves (.error (.ambiguous name)) := by
  have never : ∀ c, c.Holds good → ¬∀ d ∈ complete leaves, (d == c) = true := by
    intro c c_good equal
    have same := equal_of_equal equality proper c_good one other (equal a one) (equal b other)
    rw [same] at unlike
    cases unlike
  constructor
  · intro c
    constructor
    · rintro ⟨⟩
    · rintro ⟨head, equal⟩
      have c_good := holds_of_mem_complete proper (List.mem_of_head? head)
      exact absurd equal (never c c_good)
  · intro c c_good
    constructor
    · rintro ⟨d, ⟨⟩, -⟩
    · rintro ⟨-, equal⟩
      exact absurd equal (never c c_good)
  · exact ⟨fun _ => ⟨a, one, b, other, unlike⟩, fun _ => ⟨name, rfl⟩⟩
  · intro nothing
    rw [nothing] at one
    cases one

private theorem answersLeaves_failure {o : Outcome α} (proper : ∀ x ∈ leaves, x.Proper good)
    (nothing : complete leaves = []) (worst : FirstWorst leaves o) :
    AnswersLeaves good leaves o.toExcept := by
  obtain ⟨e, answer, other⟩ :=
    toExcept_of_failure (assignment?_eq_none nothing worst.mem) (proper o worst.mem)
  constructor
  · intro a
    rw [answer, nothing]
    constructor
    · rintro ⟨⟩
    · rintro ⟨⟨⟩, -⟩
  · intro a _
    rw [answer, nothing]
    constructor
    · rintro ⟨b, ⟨⟩, -⟩
    · rintro ⟨nonempty, -⟩
      exact absurd rfl nonempty
  · rw [answer, nothing]
    constructor
    · rintro ⟨name, same⟩
      exact absurd (Except.error.inj same) (other name)
    · rintro ⟨a, ⟨⟩, -⟩
  · intro _
    exact ⟨o, worst, rfl⟩

end Answers

theorem Sums.answersLeaves [BEq α] (equality : EqualityOn good)
    (proper : ∀ x ∈ leaves, x.Proper good) {o : Outcome α} (sums : Sums good leaves o) :
    AnswersLeaves good leaves o.toExcept := by
  cases sums with
  | success found alike => exact answersLeaves_success equality proper found (alike equality)
  | ambiguous name one other unlike =>
    exact answersLeaves_ambiguous equality proper name one other unlike
  | failure nothing worst => exact answersLeaves_failure proper nothing worst

end Matching

theorem matchArguments_eq_explore [BEq α] {formals : List Formal} {arguments : List (Argument α)}
    (distinct : (formals.map Formal.name).Nodup)
    (declared : ∀ name, .keyword name ∈ arguments → name ∈ formals.map Formal.name)
    (valued : Matching.keywordsWithoutValue arguments = []) :
    matchArguments formals arguments = (Matching.explore formals arguments).toExcept := by
  have known : (arguments.filterMap Argument.keyword?).filter
      (· ∉ formals.map Formal.name) = [] := by
    refine List.filter_eq_nil_iff.mpr fun name member => ?_
    obtain ⟨argument, among, named⟩ := List.mem_filterMap.mp member
    cases argument with
    | value a => cases named
    | keyword name' =>
      cases named
      simpa using declared name among
  unfold matchArguments
  dsimp only
  rw [if_neg (not_not_intro distinct), known, valued]

/-- Matching answers what all leaves of the full exploration say, for parameters of distinct names
and arguments whose keywords are declared and have values. -/
theorem matchArguments_answers_leaves [BEq α] {good : α → Prop} (equality : EqualityOn good)
    {formals : List Formal} (distinct : (formals.map Formal.name).Nodup)
    {arguments : List (Argument α)} (meant : ∀ a, .value a ∈ arguments → good a)
    (declared : ∀ name, .keyword name ∈ arguments → name ∈ formals.map Formal.name)
    (valued : Matching.keywordsWithoutValue arguments = []) :
    ∃ leaves, (∀ others, Matching.Leaves formals (Matching.start formals arguments) others ↔
        others = leaves) ∧
      Matching.AnswersLeaves good leaves (matchArguments formals arguments) := by
  have order := Matching.inOrder_start meant declared valued
  obtain ⟨leaves, below, proper, sums⟩ := Matching.summed_search distinct
    (formals.length + arguments.length + 1) order (by
      simp [MatchState.height, Matching.start])
  refine ⟨leaves, fun others => ⟨fun other => below.unique other, fun same => same ▸ below⟩, ?_⟩
  rw [matchArguments_eq_explore distinct declared valued]
  exact sums.answersLeaves equality proper

/-- A value that either of two parameters can take is an ambiguity, although a named argument behind
it is settled. -/
theorem matchArguments_answers_leaves_two_variadic :
    let formals : List Formal :=
      [⟨"front", .zeroOrMore⟩, ⟨"middle", .zeroOrMore⟩, ⟨"back", .required⟩]
    let arguments : List (Argument String) := [.value "x", .keyword "back", .value "y"]
    EqualityOn (fun _ : String => True) ∧ (formals.map Formal.name).Nodup ∧
      (∀ name, .keyword name ∈ arguments → name ∈ formals.map Formal.name) ∧
      Matching.keywordsWithoutValue arguments = [] ∧
      matchArguments formals arguments = .error (.ambiguous "front") ∧
      ∃ leaves, Matching.Leaves formals (Matching.start formals arguments) leaves ∧
        ∃ a ∈ Matching.complete leaves, ∃ b ∈ Matching.complete leaves, (a == b) = false := by
  intro formals arguments
  have equality := EqualityOn.of_lawful String
  have distinct : (formals.map Formal.name).Nodup := by decide
  have declared : ∀ name, .keyword name ∈ arguments → name ∈ formals.map Formal.name := by
    simp [arguments, formals]
  have valued : Matching.keywordsWithoutValue arguments = [] := rfl
  have answer : matchArguments formals arguments = .error (.ambiguous "front") := by decide +kernel
  obtain ⟨leaves, only, answers⟩ :=
    matchArguments_answers_leaves equality distinct (fun _ _ => trivial) declared valued
  exact ⟨equality, distinct, declared, valued, answer, leaves, (only leaves).mpr rfl,
    answers.ambiguous.mp ⟨"front", answer⟩⟩

end TypedCalls
