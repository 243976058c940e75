import TypedCalls.Proofs.Classes.History
import TypedCalls.Proofs.Typer.Lessons

/-!
No class that unification has written to is part of itself.

`Term.Rewrites` is substitution without a bound on the chains it follows: what a variable stands for
is replaced in turn, for as long as there is something to replace. After any number of unifications of
any terms, whether they succeeded or failed, no class is bound to a variable, no class leads back to
itself, and substitution comes to an end on every term (`reached_acyclic`).
-/

set_option autoImplicit false

namespace TypedCalls

open Classes (Lessons Peopled)
open Problem (Sane)

/-- Replace free variables according to `γ`, and what stands in their places again, to the end. -/
inductive Term.Rewrites (γ : TypeVar → Option Term) : List TypeVar → Term → Term → Prop
  | con {shadow : List TypeVar} {head : String} {args : List Term} (image : Term → Term) :
      (∀ a ∈ args, Rewrites γ shadow a (image a)) →
      Rewrites γ shadow (.con head args) (applied head (args.map image))
  | hidden {shadow : List TypeVar} {v : TypeVar} : v ∈ shadow →
      Rewrites γ shadow (.use v) (.use v)
  | unbound {shadow : List TypeVar} {v : TypeVar} : v ∉ shadow → γ v = none →
      Rewrites γ shadow (.use v) (.use v)
  | bound {shadow : List TypeVar} {v : TypeVar} {t u : Term} : v ∉ shadow → γ v = some t →
      Rewrites γ [] t u → Rewrites γ shadow (.use v) u
  | scheme {shadow : List TypeVar} {quantifier : Quantifier} {vars : List TypeVar}
      {body body' : Term} : Rewrites γ (vars ++ shadow) body body' →
      Rewrites γ shadow (.scheme quantifier vars body) (.scheme quantifier vars body')
  | func {shadow typeParams : List TypeVar} {params : List Term} {result result' : Term}
      (image : Term → Term) : (∀ p ∈ params, Rewrites γ (typeParams ++ shadow) p (image p)) →
      Rewrites γ (typeParams ++ shadow) result result' →
      Rewrites γ shadow (.func typeParams params result)
        (.func typeParams (params.map image) result')

namespace Classes

/-- Class `c` is bound to a term with a free variable in class `d`. -/
def Mentions (s : Classes) (c d : Nat) : Prop :=
  ∃ t, s.boundAt c = some t ∧ ∃ y ∈ t.freeVars, s.classOf? y = some d

private theorem rewrites_replace {s : Classes} {t : Term} {shadow : List TypeVar}
    (stands : ∀ v ∈ t.freeVars, v ∉ shadow → ∀ u, s.bound? v = some u →
      s.reading v = u.fill s.reading ∧ Term.Rewrites s.bound? [] u (u.fill s.reading)) :
    Term.Rewrites s.bound? shadow t (t.replace (fun v => some (s.reading v)) shadow) := by
  induction t using Term.induct generalizing shadow with
  | con head args ih =>
    rw [Term.replace_con]
    refine .con _ fun a member => ih a member fun v free => ?_
    exact stands v (Term.mem_freeVars_con.mpr ⟨a, member, free⟩)
  | use v =>
    rw [Term.replace]
    by_cases hidden : v ∈ shadow
    · rw [if_pos hidden]
      exact .hidden hidden
    · rw [if_neg hidden, Option.getD_some]
      cases bound : s.bound? v with
      | none =>
        rw [reading_of_unbound bound]
        exact .unbound hidden bound
      | some u =>
        obtain ⟨reads, rewrites⟩ := stands v (by simp [Term.freeVars]) hidden u bound
        rw [reads]
        exact .bound hidden bound rewrites
  | scheme quantifier vars body ih =>
    rw [Term.replace]
    refine .scheme (ih fun v free visible => ?_)
    obtain ⟨unbound, outside⟩ := not_or.mp (mt List.mem_append.mpr visible)
    exact stands v (by simp [Term.freeVars, free, unbound]) outside
  | func typeParams params result ihParams ihResult =>
    have outer : ∀ v ∈ Term.freeVarsAll params ++ result.freeVars, v ∉ typeParams ++ shadow →
        ∀ u, s.bound? v = some u →
          s.reading v = u.fill s.reading ∧ Term.Rewrites s.bound? [] u (u.fill s.reading) := by
      intro v free visible
      obtain ⟨unbound, outside⟩ := not_or.mp (mt List.mem_append.mpr visible)
      refine stands v ?_ outside
      rw [Term.freeVars, List.mem_filter]
      exact ⟨free, by simpa using unbound⟩
    rw [Term.replace, Term.replaceAll_eq_map]
    refine .func _ (fun p member => ihParams p member fun v free => outer v ?_)
      (ihResult fun v free => outer v (List.mem_append_right _ free))
    rw [Term.freeVarsAll_eq_flatMap]
    exact List.mem_append_left _ (List.mem_flatMap.mpr ⟨p, member, free⟩)

private theorem rewrites_read {s : Classes} (tidy : Tidy s) (acyclic : Acyclic s) (t : Term) :
    Term.Rewrites s.bound? [] t (s.read t) := by
  have stands : ∀ v u, s.bound? v = some u →
      s.reading v = u.fill s.reading ∧ Term.Rewrites s.bound? [] u (u.fill s.reading) := by
    refine acyclic.induction (fun v unbound u bound => ?_) (fun v t bound ih u here => ?_)
    · rw [unbound] at bound
      cases bound
    · rw [bound] at here
      cases here
      exact ⟨reading_of_bound tidy acyclic bound, rewrites_replace fun w free _ => ih w free⟩
  rw [read_eq_fill]
  exact rewrites_replace fun v _ _ => stands v

private theorem exists_lower_of_mentions {s : Classes} {rank : TypeVar → Nat}
    (ranked : Ranked s rank) {c d : Nat} (way : Relation.TransGen s.Mentions c d) {x : TypeVar}
    (found : s.classOf? x = some c) : ∃ y, s.classOf? y = some d ∧ rank y < rank x := by
  have falls : ∀ {c d x}, s.classOf? x = some c → s.Mentions c d →
      ∃ y, s.classOf? y = some d ∧ rank y < rank x := by
    rintro c d x found ⟨t, bound, y, free, place⟩
    have standsFor : s.bound? x = some t := by rw [bound?_eq_bind, found, Option.bind_some, bound]
    exact ⟨y, place, ranked.falls standsFor y free⟩
  induction way with
  | single step => exact falls found step
  | tail _ step ih =>
    obtain ⟨y, place, lower⟩ := ih
    obtain ⟨z, place', lower'⟩ := falls place step
    exact ⟨z, place', lower'.trans lower⟩

private theorem not_mentions_self {s : Classes} (acyclic : Acyclic s) (tidy : Tidy s)
    (peopled : Peopled s) (c : Nat) : ¬Relation.TransGen s.Mentions c c := by
  intro way
  obtain ⟨rank, ranked⟩ := acyclic
  obtain ⟨d, ⟨t, bound, -⟩, -⟩ := Relation.TransGen.head'_iff.mp way
  obtain ⟨x, found⟩ := peopled c (lt_size_of_boundAt bound) (tidy.survivor c t bound)
  obtain ⟨y, found', lower⟩ := exists_lower_of_mentions ranked way found
  have equal := ranked.same ((same_iff s y x).mpr (.inr ⟨c, found', found⟩))
  omega

theorem Lessons.peopled {P : Term → Prop} {s s' : Classes} (lessons : Lessons P s s')
    (sane : Sane P s) (peopled : Peopled s) : Peopled s' := by
  induction lessons with
  | refl => exact peopled
  | @tail s₁ s₂ before lesson ih =>
    have tidy := (Lessons.sane before sane).tidy
    cases lesson with
    | join _ _ _ _ => exact ih.join tidy _ _
    | bind _ _ _ _ _ => exact ih.set tidy _ _

end Classes

def Requirement.trivial : Requirement where
  Fit _ _ := True
  fit_mono _ _ := True.intro
  fit_arg _ _ _ := True.intro
  fit_scheme _ _ _ _ _ _ := True.intro
  fit_func _ _ _ _ _ _ _ := True.intro

def Contract.trivial : Contract := Requirement.trivial.contract

namespace Typer

theorem learned_unify {typer : Typer} (sound : typer.Sound .trivial) (a b : Term)
    (report : Report) :
    typer.Learned .trivial (Typing.remains (Typing.unify a b (.start typer report))).typer :=
  (Typing.honours_unify .trivial a b (.start typer report) sound True.intro True.intro).learned

theorem Evolves.lessons {P : Term → Prop} {mayBeRigid : List TypeVar → Prop} {first typer : Typer}
    (evolves : Evolves P mayBeRigid first typer) (sound : first.Sound .trivial) :
    Lessons (fun _ => True) first.classes typer.classes := by
  induction evolves with
  | refl => exact .refl
  | named counter _ ih => exact ih
  | strict _ _ ih => exact ih
  | unified report _ _ _ ih => exact ih.trans (learned_unify (Lessons.sane ih sound) _ _ report).lessons

theorem Evolves.sound {P : Term → Prop} {mayBeRigid : List TypeVar → Prop} {first typer : Typer}
    (evolves : Evolves P mayBeRigid first typer) (sound : first.Sound .trivial) :
    typer.Sound .trivial :=
  Lessons.sane (evolves.lessons sound) sound

theorem sound_fresh : Typer.fresh.Sound .trivial := Problem.sane_empty _

/-- After any unifications, of whatever terms and with whatever success: no class is bound to a
variable, bindings lead from no class back to itself, and substitution ends on every term. -/
theorem reached_acyclic {P : Term → Prop} {typer : Typer} (reached : typer.Reached P) :
    (∀ c t, typer.classes.boundAt c = some t → ∀ w, t ≠ .use w) ∧
      (∀ c, ¬Relation.TransGen typer.classes.Mentions c c) ∧
      ∀ t, Term.Rewrites typer.classes.bound? [] t (typer.read t) := by
  have sane := reached.sound sound_fresh
  have peopled := Lessons.peopled (reached.lessons sound_fresh) sound_fresh Classes.peopled_empty
  refine ⟨fun c t bound => ?_, ?_, ?_⟩
  · obtain ⟨x, found⟩ :=
      peopled c (Classes.lt_size_of_boundAt bound) (sane.tidy.survivor c t bound)
    have standsFor : typer.classes.bound? x = some t := by
      rw [Classes.bound?_eq_bind, found, Option.bind_some, bound]
    exact (sane.bound standsFor).2
  · exact Classes.not_mentions_self sane.acyclic sane.tidy peopled
  · exact Classes.rewrites_read sane.tidy sane.acyclic

def succeeded : EStateM.Result UnifyFailure Session Unit → Bool
  | .ok _ _ => true
  | .error _ _ => false

/-- Comparing two universal schemes teaches that `x` is a list of `y`. A unification that then fails
leaves `z` a list of `x`, and `z` is read through both. -/
theorem reached_acyclic_after_failure :
    let x : TypeVar := ⟨"x"⟩
    let y : TypeVar := ⟨"y"⟩
    let z : TypeVar := ⟨"z"⟩
    let list (t : Term) : Term := .con "list" [t]
    let pair (t u : Term) : Term := .con "pair" [t, u]
    let left : Term := .scheme .every [⟨"a"⟩] (pair (.use ⟨"a"⟩) (.use x))
    let right : Term := .scheme .every [⟨"b"⟩] (pair (.use ⟨"b"⟩) (list (.use y)))
    let compared := Typing.unify left right (.start .fresh .quiet)
    let failed := Typing.unify (pair (.use z) (list (.use z)))
      (pair (list (.use x)) (.named "int")) (.start (Typing.remains compared).typer .quiet)
    let typer := (Typing.remains failed).typer
    typer.Reached (fun _ => True) ∧ succeeded compared = true ∧ succeeded failed = false ∧
      typer.read (.use z) = list (list (.use y)) ∧
      (∀ c t, typer.classes.boundAt c = some t → ∀ w, t ≠ .use w) ∧
      (∀ c, ¬Relation.TransGen typer.classes.Mentions c c) ∧
      ∀ t, Term.Rewrites typer.classes.bound? [] t (typer.read t) := by
  intro x y z list pair left right compared failed typer
  have reached : typer.Reached fun _ => True :=
    .unified .quiet (.unified .quiet .refl True.intro True.intro) True.intro True.intro
  exact ⟨reached, by decide +kernel, by decide +kernel, by decide +kernel,
    reached_acyclic reached⟩

end Typer

end TypedCalls
