import TypedCalls.Proofs.Typer.Growth

/-!
Reading a term early and again later is reading it late.

Later typers only add to what is known (`Evolves.lessons`), so what the variables read as later
respects every earlier binding and absorbs what they read as before (`read_absorbs_earlier`). Terms
that were read at different times may therefore be mixed. A marker that collapses only with a later
binding is no exception.
-/

set_option autoImplicit false

namespace TypedCalls

open Problem (Extends Sane)

namespace Classes

private theorem read_read_of_extends {s s' : Classes} (sane : Sane Term.QuantifierFree s)
    (tidy : Tidy s') (acyclic : Acyclic s') (extension : Extends s s') {t : Term}
    (free : t.QuantifierFree) : s'.read (s.read t) = s'.read t := by
  have plain : ∀ x u, s.bound? x = some u → u.QuantifierFree :=
    fun x u bound => (sane.bound bound).1
  have stands : ∀ x u, s.bound? x = some u → s'.reading x = u.fill s'.reading :=
    fun x u bound => reading_of_bound tidy acyclic (extension.bound bound)
  calc
    s'.read (s.read t) = (t.fill s.reading).fill s'.reading := by
      rw [read_eq_fill, read_eq_fill]
    _ = t.fill fun v => (s.reading v).fill s'.reading := Term.fill_fill _ _ free
    _ = t.fill s'.reading := Term.fill_congr fun v _ =>
      fill_reading_of_bindings sane.tidy sane.acyclic plain stands v
    _ = s'.read t := (read_eq_fill s' t).symm

end Classes

namespace Typer

/-- A term without quantifiers that was read by a typer for such terms, and is read again after
further unifications, reads as it would have if it had been read only then. -/
theorem read_absorbs_earlier {typer later : Typer} (reached : typer.Reached Term.QuantifierFree)
    (becomes : typer.Becomes later) {t : Term} (free : t.QuantifierFree) :
    later.read (typer.read t) = later.read t := by
  obtain ⟨-, sane⟩ := reached.sane (Typing.tame_builtFrom _)
  have before := reached.sound sound_fresh
  have after := becomes.sound before
  exact Classes.read_read_of_extends sane after.tidy after.acyclic
    (Classes.Lessons.extends (becomes.lessons before) before) free

/-- First `x` is known to be a pair of `y` and `z`. Then `y` becomes nullable, and a unification
fails that has made `z` a list. The marker over `y` collapses in the second reading only. -/
theorem read_absorbs_earlier_marker :
    let var (name : String) : Term := .use ⟨name⟩
    let pair (t u : Term) : Term := .con "pair" [t, u]
    let list (t : Term) : Term := .con "list" [t]
    let maybe (t : Term) : Term := .con Term.nullableHead [t]
    let typer := (Typing.remains (Typing.unify (var "x") (pair (var "y") (var "z"))
      (.start .fresh .quiet))).typer
    let next := (Typing.remains (Typing.unify (var "y") (maybe (var "w"))
      (.start typer .quiet))).typer
    let failed := Typing.unify (pair (var "z") (.named "int"))
      (pair (list (var "w")) (.named "bool")) (.start next .quiet)
    let later := (Typing.remains failed).typer
    let t := pair (maybe (var "y")) (var "x")
    typer.Reached Term.QuantifierFree ∧ typer.Becomes later ∧ succeeded failed = false ∧
      typer.read t = pair (maybe (var "y")) (pair (var "y") (var "z")) ∧
      later.read t = pair (maybe (var "w")) (pair (maybe (var "w")) (list (var "w"))) ∧
      later.read (typer.read t) = later.read t := by
  intro var pair list maybe typer next failed later t
  have reached : typer.Reached Term.QuantifierFree :=
    .unified .quiet .refl trivial
      (by simp [pair, var, Term.QuantifierFree, Term.BuiltFrom, Term.BuiltFromAll])
  have becomes : typer.Becomes later :=
    .unified .quiet (.unified .quiet .refl True.intro True.intro) True.intro True.intro
  have free : t.QuantifierFree := by
    simp [t, pair, maybe, var, Term.QuantifierFree, Term.BuiltFrom, Term.BuiltFromAll]
  exact ⟨reached, becomes, by decide +kernel, by decide +kernel, by decide +kernel,
    read_absorbs_earlier reached becomes free⟩

end Typer

end TypedCalls
