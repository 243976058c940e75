import TypedCalls.Proofs.Term.Names
import TypedCalls.Proofs.Typer.Acyclicity

/-!
The supply of names is ahead of the names in use.

`Typer.AheadOf` says that every made-up name in what a typer knows, and in some further terms, has a
number that the typer has given out, so that the next fresh variable is in none of them. What
carries this through unification, with its trials and failures, is a contract on the compared terms
(`Contract.namesOlder`): classes and counter change together (`Learned.wellNumbered`).
-/

set_option autoImplicit false

namespace TypedCalls

open Classes (Lessons Peopled)

def Requirement.namesOlder : Requirement where
  Fit c t := t.NamesOlder c
  fit_mono le older := older.mono le
  fit_arg older := Term.namesOlder_con.mp older
  fit_scheme _ family _ _ _ older := (Term.namesOlder_scheme.mp older).2.subst_freshFor family _
  fit_func _ _ _ _ older t member :=
    ((Term.namesOlder_func.mp older).2 t member).subst_freshFor .unification _

def Contract.namesOlder : Contract := Requirement.namesOlder.contract

namespace Typer

/-- The counter is ahead of the names that the typer knows and of those in the given terms: names in
the form of made-up ones have at most its number, and the next fresh variable of either family is
none of them. -/
structure AheadOf (typer : Typer) (terms : List Term) : Prop where
  mentioned : ∀ v ∈ typer.classes.mentioned, v.Older typer.counter
  bound : ∀ c t, typer.classes.boundAt c = some t → t.NamesOlder typer.counter
  given : ∀ t ∈ terms, t.NamesOlder typer.counter
  next : ∀ family, (typer.freshVar family).1 ∉ typer.classes.mentioned ∧
    (∀ c t, typer.classes.boundAt c = some t → (typer.freshVar family).1 ∉ t.names) ∧
    ∀ t ∈ terms, (typer.freshVar family).1 ∉ t.names

/-- What the typer knows is in order, no class is without members, and all names were given out. -/
structure WellNumbered (typer : Typer) : Prop where
  sound : typer.Sound .namesOlder
  peopled : Peopled typer.classes

theorem wellNumbered_fresh : fresh.WellNumbered := ⟨Problem.sane_empty _, Classes.peopled_empty⟩

variable {typer typer' : Typer}

private theorem WellNumbered.boundAt (numbered : typer.WellNumbered) {c : Nat} {t : Term}
    (bound : typer.classes.boundAt c = some t) : t.NamesOlder typer.counter := by
  obtain ⟨x, found⟩ := numbered.peopled c (Classes.lt_size_of_boundAt bound)
    (numbered.sound.tidy.survivor c t bound)
  have standsFor : typer.classes.bound? x = some t := by
    rw [Classes.bound?_eq_bind, found, Option.bind_some, bound]
  exact (numbered.sound.bound standsFor).1

theorem WellNumbered.aheadOf (numbered : typer.WellNumbered) {terms : List Term}
    (older : ∀ t ∈ terms, t.NamesOlder typer.counter) : typer.AheadOf terms where
  mentioned _ member := Term.namesOlder_use.mp (numbered.sound.mentioned member)
  bound _ _ bound := numbered.boundAt bound
  given := older
  next family := by
    refine ⟨fun member => ?_, fun c t bound => (numbered.boundAt bound).not_mem family,
      fun t member => (older t member).not_mem family⟩
    exact Term.NamesOlder.not_mem (numbered.sound.mentioned member) family
      (List.mem_singleton_self _)

theorem Learned.wellNumbered (learned : Learned .namesOlder typer typer')
    (numbered : typer.WellNumbered) : typer'.WellNumbered :=
  ⟨learned.sound numbered.sound, Lessons.peopled learned.lessons
    (numbered.sound.mono fun _ older => older.mono learned.counter) numbered.peopled⟩

theorem namesOlder_read (sound : typer.Sound .namesOlder) {t : Term}
    (older : t.NamesOlder typer.counter) : (typer.read t).NamesOlder typer.counter :=
  older.substWithin (fun _ _ bound => (sound.bound bound).1) _

theorem learned_freshVar (C : Contract) (typer : Typer) (family : Family) :
    Learned C typer (typer.freshVar family).2 := ⟨Nat.le_succ _, rfl, .refl⟩

theorem namesOlder_instantiate (typer : Typer) (family : Family) (vars : List TypeVar)
    {terms : List Term} (older : ∀ t ∈ terms, t.NamesOlder typer.counter) :
    ∀ t ∈ (typer.instantiate family vars terms).1,
      t.NamesOlder (typer.instantiate family vars terms).2.counter :=
  List.forall_mem_map.mpr fun t member => (older t member).subst_freshFor family vars

end Typer

end TypedCalls
