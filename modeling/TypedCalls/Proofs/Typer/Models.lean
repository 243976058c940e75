import TypedCalls.Proofs.Term.Sense
import TypedCalls.Proofs.Typer.Lessons

/-!
What payloads can tell of what is known.

A model gives each variable a term such that variables known to be the same have the same one, and a
bound variable has the sense of its bound term. Two terms without schemes that were unified have the
same sense in every model of what is known then (`Contract.senses`), and so have a term and what it
reads as (`Models.read`). Reading with every unbound variable empty is a model (`models_emptied`).
-/

set_option autoImplicit false

namespace TypedCalls

open Problem (Sane Extends)

namespace Classes

structure Models (θ : TypeVar → Term) (s : Classes) : Prop where
  same : ∀ {x y}, s.same x y = true → θ x = θ y
  bound : ∀ {x t}, s.bound? x = some t → θ x = t.sense θ

variable {θ : TypeVar → Term} {s s' : Classes}

theorem Models.earlier (models : Models θ s') (extension : Extends s s') : Models θ s :=
  ⟨fun equal => models.same (extension.same equal),
    fun bound => models.bound (extension.bound bound)⟩

private theorem Models.reading (models : Models θ s) (tidy : Tidy s) (acyclic : Acyclic s)
    (v : TypeVar) : (s.reading v).sense θ = θ v := by
  revert v
  refine acyclic.induction (fun v unbound => ?_) (fun v t bound ih => ?_)
  · rw [reading_of_unbound unbound, Term.sense_use]
  · rw [reading_of_bound tidy acyclic bound, Term.sense_fill, models.bound bound]
    exact Term.sense_congr ih

theorem Models.read (models : Models θ s) (tidy : Tidy s) (acyclic : Acyclic s) (t : Term) :
    (s.read t).sense θ = t.sense θ := by
  rw [read_eq_fill, Term.sense_fill]
  exact Term.sense_congr fun v _ => models.reading tidy acyclic v

abbrev emptySense : Term → Term := Term.sense fun _ => Standard.nothing

def emptied (s : Classes) (v : TypeVar) : Term := emptySense (s.reading v)

theorem sense_emptied (s : Classes) (t : Term) : t.sense s.emptied = emptySense (s.read t) := by
  rw [read_eq_fill, emptySense, Term.sense_fill]
  rfl

theorem models_emptied (tidy : Tidy s) (acyclic : Acyclic s) : Models s.emptied s := by
  refine ⟨fun {x y} equal => ?_, fun {x t} bound => ?_⟩
  · have alike := bound?_of_same equal
    rw [emptied, emptied]
    cases bound : s.bound? x with
    | none =>
      rw [reading_of_unbound bound, reading_of_unbound (alike.symm.trans bound), emptySense,
        Term.sense_use, Term.sense_use]
    | some t =>
      rw [reading_of_bound tidy acyclic bound,
        reading_of_bound tidy acyclic (alike.symm.trans bound)]
  · rw [sense_emptied, read_eq_fill, emptied, reading_of_bound tidy acyclic bound]

theorem schemeFree_read (sane : Sane Term.SchemeFree s) {t : Term} (free : t.SchemeFree) :
    (s.read t).SchemeFree :=
  Term.schemeFree_substWithin free (fun _ _ bound => (sane.bound bound).1) _

end Classes

open Classes (Models)

theorem Typer.schemeFree_subst (typer : Typer) (family : Family) (vars : List TypeVar) {t : Term}
    (free : t.SchemeFree) : (t.subst (typer.freshFor family vars).1).SchemeFree := by
  refine Term.schemeFree_substWithin free (fun v u image => ?_) _
  by_cases member : v ∈ vars
  · obtain ⟨n, -, -, found⟩ := typer.get?_freshFor_of_mem family member
    rw [found] at image
    cases image
    exact True.intro
  · rw [typer.get?_freshFor_of_not_mem family member] at image
    cases image

/-- Terms without schemes have the same sense in every model, once they are unified. -/
def Contract.senses : Contract where
  Fit _ := Term.SchemeFree
  Agree s a b := ∀ θ, Models θ s → a.sense θ = b.sense θ
  fit_mono _ free := free
  fit_arg free := Term.schemeFree_con.mp free
  fit_scheme _ _ _ _ _ free := free.elim
  fit_func typer _ _ _ free t member :=
    typer.schemeFree_subst _ _ (Term.schemeFree_func.mp free t member)
  agree_refl _ _ _ _ := rfl
  agree_symm agree θ models := (agree θ models).symm
  agree_trans first second θ models := (first θ models).trans (second θ models)
  agree_later extension agree θ models := agree θ (models.earlier extension)
  agree_same equal θ models := by
    rw [Term.sense_use, Term.sense_use]
    exact models.same equal
  agree_bound bound θ models := by
    rw [Term.sense_use]
    exact models.bound bound
  agree_con := by
    intro s head as bs agree θ models
    rw [Term.sense_con, Term.sense_con]
    congr 1
    induction agree with
    | nil => rfl
    | cons here _ ih => rw [List.map_cons, List.map_cons, here θ models, ih]
  agree_func _ _ _ _ _ _ _ θ _ := by rw [Term.sense_func, Term.sense_func]
  agree_scheme free := free.elim

end TypedCalls
