import TypedCalls.Instance.Basic
import TypedCalls.Proofs.Typer.Fresh
import TypedCalls.Proofs.Typer.Unification

/-!
Rules with their type parameters replaced, and rules opened by fresh variables.
-/

set_option autoImplicit false

namespace TypedCalls

open Problem
open Classes (Satisfies)

namespace Rule

def terms (rule : Rule) : List Term := rule.returns :: rule.dependencies

def names (rule : Rule) : List TypeVar := rule.typeParams ++ rule.terms.flatMap Term.freeVars

def specialize (rule : Rule) (σ : TypeVar → Term) (t : Term) : Term :=
  t.replace (fun v => if v ∈ rule.typeParams then some (σ v) else none) []

theorem specialize_eq_fill (rule : Rule) (σ : TypeVar → Term) (t : Term) :
    rule.specialize σ t = t.fill fun v => if v ∈ rule.typeParams then σ v else .use v := by
  rw [specialize, Term.replace_nil_eq_fill]
  apply Term.fill_congr
  intro v _
  split <;> rfl

theorem fill_specialize (rule : Rule) (σ θ : TypeVar → Term) {t : Term} (free : t.QuantifierFree) :
    (rule.specialize σ t).fill θ =
      t.fill fun v => if v ∈ rule.typeParams then (σ v).fill θ else θ v := by
  rw [specialize_eq_fill, Term.fill_fill _ _ free]
  apply Term.fill_congr
  intro v _
  split
  · rfl
  · rw [Term.fill_use]

theorem builtFrom_specialize {allowed : String → Prop} (rule : Rule) {σ : TypeVar → Term}
    (images : ∀ v, (σ v).BuiltFrom allowed) {t : Term} (built : t.BuiltFrom allowed) :
    (rule.specialize σ t).BuiltFrom allowed := by
  rw [specialize_eq_fill]
  refine Term.builtFrom_fill built fun v _ => ?_
  split
  · exact images v
  · trivial

theorem subst_freshFor_eq_specialize (rule : Rule) (given : ∀ v ∈ rule.names, ¬v.MadeUp)
    (typer : Typer) (family : Family) :
    Term.subst (typer.freshFor family rule.typeParams).1 =
      rule.specialize (typer.opening family rule.typeParams) := by
  funext t
  rw [typer.subst_freshFor _ fun v member => given v (List.mem_append_left _ member),
    specialize_eq_fill]
  apply Term.fill_congr
  intro v _
  split
  · rfl
  · next other => rw [typer.opening_of_not_mem _ other]

theorem returns_of_checked {rule : Rule} (checked : rule.checked = .ok rule) :
    rule.returns.head?.isSome = true := by
  rw [Rule.checked] at checked
  split at checked
  · cases checked
  · next applied => simpa [Option.isSome_iff_ne_none] using applied

theorem dependencies_of_checked {rule : Rule} (checked : rule.checked = .ok rule) :
    ∀ d ∈ rule.dependencies, d.head?.isSome = true := by
  rw [Rule.checked] at checked
  split at checked
  · cases checked
  · split at checked
    · cases checked
    · next applied => simpa [Option.isSome_iff_ne_none] using applied

end Rule

theorem Term.FirstOrder.head?_fill {t : Term} (first : t.FirstOrder) (θ : TypeVar → Term)
    {head : String} (applied : t.head? = some head) : (t.fill θ).head? = some head :=
  (first.intact θ).head?_fill applied

/-- Every term of every rule has a property, and no rule names a variable in the form of a made-up
one. -/
def Registry.Over {β : Type} (P : Term → Prop) (registry : Registry β) : Prop :=
  ∀ inst ∈ registry, (∀ t ∈ inst.rule.terms, P t) ∧ ∀ v ∈ inst.rule.names, ¬v.MadeUp

theorem Typer.builtFrom_opening {allowed : String → Prop} (typer : Typer) (family : Family)
    (vars : List TypeVar) (v : TypeVar) : (typer.opening family vars v).BuiltFrom allowed := by
  by_cases member : v ∈ vars
  · obtain ⟨n, -, -, equal⟩ := typer.opening_of_mem family member
    rw [equal]
    trivial
  · rw [typer.opening_of_not_mem _ member]
    trivial

theorem Typing.unify_opened {P : Term → Prop} (tame : Tame P) {typer : Typer}
    (rigid : typer.rigid = []) (sane : Sane P typer.classes) {family : Family}
    {vars : List TypeVar} {a b : Term} (left : P a) (right : P b) {report : Report} {s : Session}
    (unified : unify a b (.start (typer.freshFor family vars).2 report) = .ok () s) :
    s.typer.rigid = [] ∧ s.typer.counter = typer.counter + vars.length ∧
      Sane P s.typer.classes ∧ ∀ θ, Satisfies θ s.typer.classes →
        Satisfies θ typer.classes ∧ a.fill θ = b.fill θ := by
  rw [Typer.freshFor_snd] at unified
  obtain ⟨kept, after, solutions⟩ := unify_ok tame rigid sane left right unified
  exact ⟨kept.rigid.trans rigid, kept.counter, after, solutions⟩

theorem Typing.unify_opened_intact {θ : TypeVar → Term} {typer : Typer} (rigid : typer.rigid = [])
    (sane : Sane (Term.Intact θ) typer.classes) (family : Family) (vars : List TypeVar)
    {a b : Term} (intactA : a.Intact θ) (intactB : b.Intact θ)
    (satisfies : Satisfies θ typer.classes) (equal : a.fill θ = b.fill θ) (report : Report) :
    (∃ s, unify a b (.start (typer.freshFor family vars).2 report) = .ok () s ∧
      Satisfies θ s.typer.classes) ∨
    ∃ s, unify a b (.start (typer.freshFor family vars).2 report) = .error .tooDeep s := by
  rw [Typer.freshFor_snd]
  exact unify_intact (s := .start _ report) rigid sane intactA intactB satisfies equal

theorem Typing.unify_opened_cases {typer : Typer} (rigid : typer.rigid = [])
    (sane : Sane Term.FirstOrder typer.classes) (family : Family) (vars : List TypeVar)
    {a b : Term} (firstA : a.FirstOrder) (firstB : b.FirstOrder) (report : Report) :
    (∃ s, unify a b (.start (typer.freshFor family vars).2 report) = .ok () s ∧
      ∀ θ, Satisfies θ typer.classes ∧ a.fill θ = b.fill θ ↔ Satisfies θ s.typer.classes) ∨
    ∃ clash s, unify a b (.start (typer.freshFor family vars).2 report) = .error (.clash clash) s ∧
      ∀ θ, ¬(Satisfies θ typer.classes ∧ a.fill θ = b.fill θ) := by
  rw [Typer.freshFor_snd]
  exact unify_cases (s := .start _ report) rigid sane firstA firstB

end TypedCalls
