import TypedCalls.Proofs.Typer.Depth

/-!
What unification computes.

On first-order terms it always comes to an end, and what a typer knows after it are exactly the common
solutions of what it knew before and of the equation; it fails if there are none. What variables read
as is then a most general solution.
-/

set_option autoImplicit false

namespace TypedCalls

open Problem
open Classes (Satisfies)

/-- The session that a run leaves behind, however it ended. -/
def Typing.remains : EStateM.Result UnifyFailure Session Unit → Session
  | .ok _ s => s
  | .error _ s => s

namespace Typer

/-- Typers that come from a first one, or a copy of it, by unifying terms with a given property, with
or without success. In between, names may be given out, and variables may be made rigid where that is
allowed. -/
inductive Evolves (P : Term → Prop) (mayBeRigid : List TypeVar → Prop) (first : Typer) :
    Typer → Prop
  | refl : Evolves P mayBeRigid first first
  | named {typer : Typer} (counter : Nat) : Evolves P mayBeRigid first typer →
      Evolves P mayBeRigid first { typer with counter }
  | strict {typer : Typer} {rigid : List TypeVar} : mayBeRigid rigid →
      Evolves P mayBeRigid first typer → Evolves P mayBeRigid first { typer with rigid }
  | unified {typer : Typer} {a b : Term} (report : Report) : Evolves P mayBeRigid first typer →
      P a → P b →
      Evolves P mayBeRigid first (Typing.remains (Typing.unify a b (.start typer report))).typer

/-- Typers that come from one that knows nothing, and in which no variable was made rigid. -/
abbrev Reached (P : Term → Prop) : Typer → Prop := Evolves P (fun _ => False) .fresh

/-- Typers that come from one that knows nothing, by any terms and any rigid variables. -/
abbrev Taught : Typer → Prop := Evolves (fun _ => True) (fun _ => True) .fresh

/-- Typers that a typer comes to, by any terms and any rigid variables. -/
abbrev Becomes : Typer → Typer → Prop := Evolves (fun _ => True) fun _ => True

end Typer

namespace Typing

private theorem Ends.remains_sane {P : Term → Prop} (hereditary : Hereditary P) {mayStop : Prop}
    {s : Session} {todo : List (Term × Term)} {r : EStateM.Result UnifyFailure Session Unit}
    (ends : Ends mayStop s todo r) (fine : Fine P ⟨s.typer.classes, todo⟩) :
    Kept s (remains r) ∧ Sane P (remains r).typer.classes := by
  have whole : Fine P ⟨s.typer.classes, todo ++ []⟩ := by rwa [List.append_nil]
  cases ends with
  | solved kept steps => exact ⟨kept, (Steps.fine hereditary (steps []) whole).sane⟩
  | clashed kept steps => exact ⟨kept, (Steps.fine hereditary (steps []) whole).sane⟩
  | stopped _ kept steps => exact ⟨kept, (Steps.fine hereditary (steps []) whole).sane⟩

private theorem fine_singleton {P : Term → Prop} {s : Classes} {a b : Term} (sane : Sane P s)
    (left : P a) (right : P b) : Fine P ⟨s, [(a, b)]⟩ :=
  ⟨sane, fun _ member => List.mem_singleton.mp member ▸ ⟨left, right⟩⟩

end Typing

theorem Typer.Reached.sane {P : Term → Prop} (tame : Typing.Tame P) {typer : Typer}
    (reached : typer.Reached P) : typer.rigid = [] ∧ Sane P typer.classes := by
  induction reached with
  | refl => exact ⟨rfl, sane_empty P⟩
  | named counter _ ih => exact ih
  | strict never => exact never.elim
  | @unified typer a b report _ left right ih =>
    obtain ⟨rigid, sane⟩ := ih
    have fine := Typing.fine_singleton sane left right
    have ends := Typing.works_unifyWithin tame (typer.depthFor a b) a b (.start typer report) rigid
      sane fine.equations
    obtain ⟨kept, after⟩ := ends.remains_sane tame.hereditary fine
    exact ⟨kept.rigid.trans rigid, after⟩

namespace Classes

def MostGeneral (μ : TypeVar → Term) (s : Classes) : Prop :=
  ∀ θ, Satisfies θ s ↔ ∃ η, ∀ v, θ v = (μ v).fill η

private theorem mostGeneral_solution {s : Classes} (sane : Sane Term.QuantifierFree s) :
    MostGeneral s.solution s := by
  have free : ∀ x t, s.bound? x = some t → t.QuantifierFree := fun x t bound => (sane.bound bound).1
  have satisfies := satisfies_solution sane.tidy sane.acyclic free
  refine fun θ => ⟨fun solves => ⟨θ, fill_solution sane.tidy sane.acyclic free solves⟩, ?_⟩
  rintro ⟨η, factors⟩
  obtain ⟨equal, stands⟩ := (satisfies_iff sane.tidy).mp satisfies
  refine (satisfies_iff sane.tidy).mpr ⟨fun x y same => ?_, fun x t bound => ?_⟩
  · rw [factors, factors, equal x y same]
  · rw [factors, stands x t bound, Term.fill_fill _ _ (free x t bound)]
    exact Term.fill_congr fun v _ => (factors v).symm

end Classes

namespace Typing

theorem unify_ok {P : Term → Prop} (tame : Tame P) {s s' : Session} {a b : Term}
    (rigid : s.typer.rigid = []) (sane : Sane P s.typer.classes) (left : P a) (right : P b)
    (unified : unify a b s = .ok () s') :
    Kept s s' ∧ Sane P s'.typer.classes ∧ ∀ θ, Satisfies θ s'.typer.classes →
      Satisfies θ s.typer.classes ∧ a.fill θ = b.fill θ := by
  have fine := fine_singleton sane left right
  have ends := works_unifyWithin tame (s.typer.depthFor a b) a b s rigid sane fine.equations
  rw [show unifyWithin (s.typer.depthFor a b) a b s = .ok () s' from unified] at ends
  obtain ⟨kept, after⟩ := ends.remains_sane tame.hereditary fine
  refine ⟨kept, after, fun θ satisfies => ?_⟩
  cases ends with
  | solved _ steps =>
    have solves := (steps []).solves_of_solves (θ := θ) (fine.mono fun _ => tame.free)
      ⟨satisfies, nofun⟩
    exact ⟨solves.1, solves.2 _ (List.mem_singleton_self (a, b))⟩

theorem unify_intact {θ : TypeVar → Term} {s : Session} {a b : Term} (rigid : s.typer.rigid = [])
    (sane : Sane (Term.Intact θ) s.typer.classes) (intactA : a.Intact θ) (intactB : b.Intact θ)
    (satisfies : Satisfies θ s.typer.classes) (equal : a.fill θ = b.fill θ) :
    (∃ s', unify a b s = .ok () s' ∧ Satisfies θ s'.typer.classes) ∨
      ∃ s', unify a b s = .error .tooDeep s' := by
  have fine := fine_singleton sane intactA intactB
  have solves : Solves θ ⟨s.typer.classes, [(a, b)] ++ []⟩ := by simpa [Solves, satisfies] using equal
  have ends := works_unifyWithin (tame_intact θ) (s.typer.depthFor a b) a b s rigid sane
    fine.equations
  change Ends True s [(a, b)] (unify a b s) at ends
  generalize unify a b s = result at ends
  cases ends with
  | @solved s' kept steps => exact .inl ⟨s', rfl, ((steps []).solves fine solves).1⟩
  | @clashed clash s' left kept steps clashes =>
    have stuck := Steps.fine (hereditary_intact θ) (steps []) fine
    have left := (steps []).solves fine solves
    rw [List.append_nil] at stuck left
    exact absurd left (clashes.not_solves stuck)
  | @stopped s' left _ _ _ => exact .inr ⟨s', rfl⟩

theorem unify_cases {s : Session} {a b : Term} (rigid : s.typer.rigid = [])
    (sane : Sane Term.FirstOrder s.typer.classes) (firstA : a.FirstOrder) (firstB : b.FirstOrder) :
    (∃ s', unify a b s = .ok () s' ∧
      ∀ θ, Satisfies θ s.typer.classes ∧ a.fill θ = b.fill θ ↔ Satisfies θ s'.typer.classes) ∨
    ∃ clash s', unify a b s = .error (.clash clash) s' ∧
      ∀ θ, ¬(Satisfies θ s.typer.classes ∧ a.fill θ = b.fill θ) := by
  have fine := fine_singleton sane firstA firstB
  have problem : ∀ θ, Satisfies θ s.typer.classes ∧ a.fill θ = b.fill θ ↔
      Solves θ ⟨s.typer.classes, [(a, b)] ++ []⟩ := by
    intro θ
    simp [Solves]
  have ends := ends_unify rigid sane firstA firstB
  generalize unify a b s = result at ends
  cases ends with
  | @solved s' kept steps =>
    refine .inl ⟨s', rfl, fun θ => ?_⟩
    rw [problem, ← (steps []).solves_iff fine]
    simp [Solves]
  | @clashed clash s' left kept steps clashes =>
    refine .inr ⟨clash, s', rfl, fun θ solves => ?_⟩
    rw [problem, ← (steps []).solves_iff fine, List.append_nil] at solves
    have stuck := Steps.fine (hereditary_builtFrom _) (steps []) fine
    rw [List.append_nil] at stuck
    exact clashes.not_solves (stuck.mono fun _ first => Term.FirstOrder.intact first θ) solves
  | stopped never => exact never.elim

/-- What it means that a unification answers with the common solutions, which are the substitutions
that agree with what the typer knows and make the two terms equal. -/
structure AnswersCommonSolutions (typer : Typer) (a b : Term)
    (result : EStateM.Result UnifyFailure Session Unit) : Prop where
  /-- It ends, with success or with a clash. -/
  ends : (∃ s, result = .ok () s) ∨ ∃ clash s, result = .error (.clash clash) s
  /-- The common solutions are those of what is known after success. -/
  solutions : ∀ θ, Satisfies θ typer.classes ∧ a.fill θ = b.fill θ ↔
    ∃ s, result = .ok () s ∧ Satisfies θ s.typer.classes
  /-- It fails exactly where no first-order substitution is a common solution. -/
  fails : (∃ clash s, result = .error (.clash clash) s) ↔
    ¬∃ θ : TypeVar → Term, (∀ v, (θ v).FirstOrder) ∧ Satisfies θ typer.classes ∧
      a.fill θ = b.fill θ
  /-- After success, what variables read as is first-order and most general. -/
  mostGeneral : ∀ s, result = .ok () s →
    (∀ v, (s.typer.classes.solution v).FirstOrder) ∧
      Classes.MostGeneral s.typer.classes.solution s.typer.classes

/-- Unification computes exactly the common solutions, whatever the typer has learned before. -/
theorem unify_common_solutions {typer : Typer} (reached : typer.Reached Term.FirstOrder)
    {a b : Term} (firstA : a.FirstOrder) (firstB : b.FirstOrder) (report : Report) :
    AnswersCommonSolutions typer a b (unify a b (.start typer report)) := by
  obtain ⟨rigid, sane⟩ := reached.sane (tame_builtFrom _)
  have after : Sane Term.FirstOrder
      (remains (unify a b (.start typer report))).typer.classes :=
    ((show Typer.Reached _ _ from .unified report reached firstA firstB).sane (tame_builtFrom _)).2
  rcases unify_cases (s := .start typer report) rigid sane firstA firstB with
    ⟨s, success, solutions⟩ | ⟨clash, s, failure, none⟩
  · rw [success] at after ⊢
    have first := Classes.builtFrom_solution after.tidy after.acyclic fun x t bound =>
      (after.bound bound).1
    have general := Classes.mostGeneral_solution
      (after.mono fun _ plain => Term.BuiltFrom.quantifierFree plain)
    have solves : Satisfies s.typer.classes.solution s.typer.classes :=
      (general _).mpr ⟨.use, fun v => (Term.FirstOrder.fill_use_self (first v)).symm⟩
    refine ⟨.inl ⟨s, rfl⟩, fun θ => ?_, ?_, ?_⟩
    · refine (solutions θ).trans ⟨fun solves => ⟨s, rfl, solves⟩, ?_⟩
      rintro ⟨_, ⟨⟩, solves⟩
      exact solves
    · refine ⟨nofun, fun none => absurd ⟨s.typer.classes.solution, first, ?_⟩ none⟩
      exact (solutions _).mpr solves
    · rintro _ ⟨⟩
      exact ⟨first, general⟩
  · rw [failure]
    refine ⟨.inr ⟨clash, s, rfl⟩, fun θ => ?_, ?_, nofun⟩
    · refine ⟨fun solves => absurd solves (none θ), ?_⟩
      rintro ⟨_, ⟨⟩, _⟩
    · refine ⟨fun _ => ?_, fun _ => ⟨clash, s, rfl⟩⟩
      rintro ⟨θ, -, solves⟩
      exact none θ solves

/-- A typer that has learned `x` to be a list of `y` unifies the pair of `x` and `y` with the pair of
a list of integers and `z`, and then reads `z` as an integer. -/
theorem unify_common_solutions_pair :
    let x : TypeVar := ⟨"x"⟩
    let y : TypeVar := ⟨"y"⟩
    let z : TypeVar := ⟨"z"⟩
    let list (t : Term) : Term := .con "list" [t]
    let pair (t u : Term) : Term := .con "pair" [t, u]
    let typer := (remains (unify (.use x) (list (.use y)) (.start .fresh .quiet))).typer
    let result := unify (pair (.use x) (.use y)) (pair (list (.named "int")) (.use z))
      (.start typer .quiet)
    typer.Reached Term.FirstOrder ∧ (pair (.use x) (.use y)).FirstOrder ∧
      (pair (list (.named "int")) (.use z)).FirstOrder ∧
      AnswersCommonSolutions typer (pair (.use x) (.use y)) (pair (list (.named "int")) (.use z))
        result ∧
      (remains result).typer.read (.use z) = .named "int" := by
  intro x y z list pair typer result
  have reached : typer.Reached Term.FirstOrder :=
    .unified .quiet .refl trivial (by simp [list, Term.FirstOrder, Term.BuiltFrom,
      Term.BuiltFromAll, Term.nullableHead])
  have firstA : (pair (.use x) (.use y)).FirstOrder := by
    simp [pair, Term.FirstOrder, Term.BuiltFrom, Term.BuiltFromAll, Term.nullableHead]
  have firstB : (pair (list (.named "int")) (.use z)).FirstOrder := by
    simp [pair, list, Term.FirstOrder, Term.BuiltFrom, Term.BuiltFromAll, Term.nullableHead]
  exact ⟨reached, firstA, firstB, unify_common_solutions reached firstA firstB .quiet,
    by decide +kernel⟩

end Typing

end TypedCalls
