import TypedCalls.Proofs.Typer.Acyclicity

/-!
Unification only adds to what is known.

Whatever it is given and however it ends, it takes back no equality and no binding, gives the rigid
variables back as they were, and never brings two bound classes together (`unify_only_adds`). If it
fails on two universal schemes, it has learned nothing at all.
-/

set_option autoImplicit false

namespace TypedCalls

open Classes (Lesson Lessons Tidy)
open Problem (Sane)

namespace Classes

private theorem Lesson.same_of_bound {P : Term → Prop} {s s' : Classes} (lesson : Lesson P s s')
    (tidy : Tidy s) {x y : TypeVar} {t u : Term} (boundX : s.bound? x = some t)
    (boundY : s.bound? y = some u) (joined : s'.same x y = true) : s.same x y = true := by
  cases lesson with
  | @join v w _ _ unbound _ =>
    have notJoined : ∀ {z r}, s.bound? z = some r → ¬s.same z v = true := by
      intro z r bound same
      rw [bound?_of_same same, unbound] at bound
      cases bound
    obtain ⟨-, same, -, -⟩ := join_spec tidy w unbound
    rcases (same x y).mp joined with old | ⟨here, -⟩ | ⟨-, here⟩
    · exact old
    · exact absurd here (notJoined boundX)
    · exact absurd here (notJoined boundY)
  | @bind v r _ _ _ _ _ =>
    obtain ⟨-, same, -, -⟩ := set_spec tidy v (some r)
    rwa [same] at joined

theorem Lessons.same_of_bound {P : Term → Prop} {s s' : Classes} (lessons : Lessons P s s')
    (sane : Sane P s) {x y : TypeVar} {t u : Term} (boundX : s.bound? x = some t)
    (boundY : s.bound? y = some u) (joined : s'.same x y = true) : s.same x y = true := by
  induction lessons with
  | refl => exact joined
  | tail before lesson ih =>
    have extension := Lessons.extends before sane
    exact ih (lesson.same_of_bound (Lessons.sane before sane).tidy (extension.bound boundX)
      (extension.bound boundY) joined)

end Classes

/-- The second typer knows what the first knew, by writes that bind only what was not bound. -/
structure Typer.OnlyAdds (before after : Typer) : Prop where
  /-- Variables that compare equal still do. -/
  equal : ∀ x y, (before.classes.compare x y).1 = true → (after.classes.compare x y).1 = true
  /-- A bound variable is bound to the very same term. -/
  bound : ∀ x t, (before.classes.get x).1 = some t → (after.classes.get x).1 = some t
  /-- Two variables that were bound apart from each other stay apart. -/
  apart : ∀ x y t u, (before.classes.get x).1 = some t → (before.classes.get y).1 = some u →
    (before.classes.compare x y).1 = false → (after.classes.compare x y).1 = false
  /-- Every write on the way binds an unbound class, or joins an unbound variable to another. -/
  writes : Lessons (fun _ => True) before.classes after.classes
  rigid : after.rigid = before.rigid
  counter : before.counter ≤ after.counter

private theorem Typer.Learned.onlyAdds {typer typer' : Typer}
    (learned : typer.Learned .trivial typer')
    (sound : typer.Sound .trivial) : typer.OnlyAdds typer' := by
  have tidy := sound.tidy
  have tidy' := (learned.sound sound).tidy
  have extension := learned.extends sound
  refine ⟨fun x y => ?_, fun x t => ?_, fun x y t u => ?_, learned.lessons, learned.rigid,
    learned.counter⟩
  · rw [Classes.compare_fst tidy, Classes.compare_fst tidy']
    exact extension.same
  · rw [Classes.get_fst tidy, Classes.get_fst tidy']
    exact extension.bound
  · rw [Classes.get_fst tidy, Classes.get_fst tidy, Classes.compare_fst tidy,
      Classes.compare_fst tidy']
    intro boundX boundY apart
    refine Bool.eq_false_iff.mpr fun joined => ?_
    rw [Lessons.same_of_bound learned.lessons sound boundX boundY joined] at apart
    cases apart

namespace Typing

private theorem firstOf_error {first second : Typing Unit} {s s' : Session} {failure : UnifyFailure}
    (failed : firstOf first second s = .error failure s') : s'.typer = s.typer := by
  unfold firstOf at failed
  split at failed
  · cases failed
  · cases failed
    rfl
  · split at failed
    · cases failed
    · cases failed
      rfl
    · cases failed
      rfl

private theorem unify_schemes_error {vs ws : List TypeVar} {a b : Term} {s s' : Session}
    {failure : UnifyFailure}
    (failed : unify (.scheme .every vs a) (.scheme .every ws b) s = .error failure s') :
    s'.typer = s.typer := by
  obtain ⟨depth, positive⟩ : ∃ depth,
      s.typer.depthFor (.scheme .every vs a) (.scheme .every ws b) = depth + 1 :=
    Nat.exists_eq_succ_of_ne_zero (by unfold Typer.depthFor; omega)
  change unifyWithin (s.typer.depthFor _ _) _ _ s = _ at failed
  rw [positive, unifyWithin, unifyStep] at failed
  split at failed
  · cases failed
  · exact firstOf_error failed

/-- Unification takes nothing back of what was known, whether it succeeds or fails; and if it fails
on two universal schemes, the typer is as it was. -/
theorem unify_only_adds {typer : Typer} (taught : typer.Taught) (a b : Term) (report : Report) :
    typer.OnlyAdds (remains (unify a b (.start typer report))).typer ∧
      ∀ vs s ws t failure session, a = .scheme .every vs s → b = .scheme .every ws t →
        unify a b (.start typer report) = .error failure session → session.typer = typer := by
  have sound := taught.sound Typer.sound_fresh
  refine ⟨(Typer.learned_unify sound a b report).onlyAdds sound, ?_⟩
  rintro vs s ws t failure session rfl rfl failed
  exact unify_schemes_error failed

/-- With `r` rigid and `x` a list of `y`, a unification learns that `z` is a list of `x`, and then
fails at `r`. A comparison of two schemes that fails after that learns nothing. -/
theorem unify_only_adds_after_failure :
    let x : TypeVar := ⟨"x"⟩
    let y : TypeVar := ⟨"y"⟩
    let z : TypeVar := ⟨"z"⟩
    let r : TypeVar := ⟨"r"⟩
    let list (t : Term) : Term := .con "list" [t]
    let pair (t u : Term) : Term := .con "pair" [t, u]
    let known : Typer := { (remains (unify (.use x) (list (.use y)) (.start .fresh .quiet))).typer
      with rigid := [r] }
    let failed := unify (pair (.use z) (.use r)) (pair (list (.use x)) (.named "int"))
      (.start known .quiet)
    let typer := (remains failed).typer
    let left : Term := .scheme .every [⟨"a"⟩] (pair (.use ⟨"a"⟩) (.named "int"))
    let right : Term := .scheme .every [⟨"b"⟩] (pair (.use ⟨"b"⟩) (.use ⟨"b"⟩))
    let compared := unify left right (.start typer .quiet)
    known.Taught ∧ Typer.succeeded failed = false ∧ (typer.classes.get x).1 = some (list (.use y)) ∧
      (typer.classes.get z).1 = some (list (.use x)) ∧ typer.rigid = [r] ∧
      Typer.succeeded compared = false ∧ (remains compared).typer = typer ∧
      known.OnlyAdds typer := by
  intro x y z r list pair known failed typer left right compared
  have taught : known.Taught :=
    .strict True.intro (.unified .quiet .refl True.intro True.intro)
  have next : typer.Taught := .unified .quiet taught True.intro True.intro
  obtain ⟨onlyAdds, -⟩ := unify_only_adds taught (pair (.use z) (.use r))
    (pair (list (.use x)) (.named "int")) .quiet
  have fails : Typer.succeeded compared = false := by decide +kernel
  have unchanged : (remains compared).typer = typer := by
    cases result : compared with
    | ok _ s =>
      rw [result] at fails
      cases fails
    | error failure s =>
      exact (unify_only_adds next left right .quiet).2 _ _ _ _ failure s rfl rfl result
  exact ⟨taught, by decide +kernel, by decide +kernel, by decide +kernel, by decide +kernel, fails,
    unchanged, onlyAdds⟩

end Typing

end TypedCalls
