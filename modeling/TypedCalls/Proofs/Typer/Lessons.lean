import TypedCalls.Proofs.Succeeding
import TypedCalls.Proofs.Typer.Fresh
import TypedCalls.Proofs.Typer.Unification

/-!
What unification may write, whatever it is given.

A `Lesson` is one write to the classes as the occurs check allows it: an unbound variable is joined to
a variable that does not lead back to it, or bound to such a term. A `Contract` names a property that
the compared terms pass on to their parts, and a relation that success is to establish. Unification,
at any depth and with quantifiers, rigid variables, trials and failures, writes lessons only, returns
the rigid variables as they were, and establishes the relation when it succeeds
(`honours_unifyWithin`).
-/

set_option autoImplicit false

namespace TypedCalls

open Classes (LeadsTo Tidy)
open Problem (Sane Extends)

namespace Classes

/-- One write that the occurs check allows, about variables and terms with a given property. -/
inductive Lesson (P : Term → Prop) : Classes → Classes → Prop
  | join {s : Classes} {v w : TypeVar} : P (.use v) → P (.use w) → s.bound? v = none →
      ¬LeadsTo s w v → Lesson P s (s.join v w)
  | bind {s : Classes} {v : TypeVar} {t : Term} : P (.use v) → P t → s.bound? v = none →
      (∀ w, t ≠ .use w) → (∀ y ∈ t.freeVars, ¬LeadsTo s y v) → Lesson P s (s.set v (some t))

abbrev Lessons (P : Term → Prop) : Classes → Classes → Prop := Relation.ReflTransGen (Lesson P)

private theorem Lesson.mono {P Q : Term → Prop} (weaker : ∀ t, P t → Q t) {s s' : Classes}
    (lesson : Lesson P s s') : Lesson Q s s' := by
  cases lesson with
  | join left right unbound apart => exact .join (weaker _ left) (weaker _ right) unbound apart
  | bind var term unbound notUse apart =>
    exact .bind (weaker _ var) (weaker _ term) unbound notUse apart

theorem Lessons.mono {P Q : Term → Prop} (weaker : ∀ t, P t → Q t) {s s' : Classes}
    (lessons : Lessons P s s') : Lessons Q s s' :=
  Relation.ReflTransGen.mono (fun _ _ => Lesson.mono weaker) s s' lessons

private theorem Lesson.sane {P : Term → Prop} {s s' : Classes} (lesson : Lesson P s s')
    (sane : Sane P s) : Sane P s' := by
  cases lesson with
  | join left right unbound apart => exact sane.join left right unbound apart
  | bind var term _ notUse apart => exact sane.set var term notUse apart

theorem Lessons.sane {P : Term → Prop} {s s' : Classes} (lessons : Lessons P s s')
    (sane : Sane P s) : Sane P s' := by
  induction lessons with
  | refl => exact sane
  | tail _ lesson ih => exact lesson.sane ih

private theorem Lesson.extends {P : Term → Prop} {s s' : Classes} (lesson : Lesson P s s')
    (tidy : Tidy s) : Extends s s' := by
  cases lesson with
  | @join v w _ _ unbound apart =>
    exact (@Problem.Step.join s v w [] unbound apart).extends tidy
  | @bind v t _ _ unbound notUse apart =>
    exact (@Problem.Step.bind s v t [] unbound notUse apart).extends tidy

theorem Lessons.extends {P : Term → Prop} {s s' : Classes} (lessons : Lessons P s s')
    (sane : Sane P s) : Extends s s' := by
  induction lessons with
  | refl => exact .refl s
  | tail before lesson ih => exact ih.trans (lesson.extends (Lessons.sane before sane).tidy)

end Classes

open Classes (Lessons)

/-- What is asked of compared terms, given the number of the last fresh name. They pass it on to the
terms that they are compared by. -/
structure Requirement where
  Fit : Nat → Term → Prop
  fit_mono : ∀ {c d t}, c ≤ d → Fit c t → Fit d t
  fit_arg : ∀ {c head args}, Fit c (.con head args) → ∀ a ∈ args, Fit c a
  fit_scheme : ∀ (typer : Typer) (family : Family) {quantifier vars body},
    Fit typer.counter (.scheme quantifier vars body) →
      Fit (typer.freshFor family vars).2.counter (body.subst (typer.freshFor family vars).1)
  fit_func : ∀ (typer : Typer) {vars params result},
    Fit typer.counter (.func vars params result) → ∀ t ∈ params ++ [result],
      Fit (typer.freshFor .unification vars).2.counter
        (t.subst (typer.freshFor .unification vars).1)

/-- What is asked of compared terms, and what success says of them. Schemes either do not fit or agree
with everything. -/
structure Contract extends Requirement where
  Agree : Classes → Term → Term → Prop
  agree_refl : ∀ s t, Agree s t t
  agree_symm : ∀ {s a b}, Agree s a b → Agree s b a
  agree_trans : ∀ {s a b c}, Agree s a b → Agree s b c → Agree s a c
  agree_later : ∀ {s s' a b}, Extends s s' → Agree s a b → Agree s' a b
  agree_same : ∀ {s v w}, s.same v w = true → Agree s (.use v) (.use w)
  agree_bound : ∀ {s v t}, s.bound? v = some t → Agree s (.use v) t
  agree_con : ∀ {s head as bs}, List.Forall₂ (Agree s) as bs →
    Agree s (.con head as) (.con head bs)
  agree_func : ∀ s vs ps r ws qs t, Agree s (.func vs ps r) (.func ws qs t)
  agree_scheme : ∀ {c quantifier vars body}, Fit c (.scheme quantifier vars body) →
    ∀ s t, Agree s (.scheme quantifier vars body) t

/-- The contract that says nothing of success. -/
def Requirement.contract (requirement : Requirement) : Contract where
  toRequirement := requirement
  Agree _ _ _ := True
  agree_refl _ _ := True.intro
  agree_symm _ := True.intro
  agree_trans _ _ := True.intro
  agree_later _ _ := True.intro
  agree_same _ := True.intro
  agree_bound _ := True.intro
  agree_con _ := True.intro
  agree_func _ _ _ _ _ _ _ := True.intro
  agree_scheme _ _ _ := True.intro

/-- One typer has come from another by lessons and by giving out names. -/
structure Typer.Learned (C : Contract) (typer typer' : Typer) : Prop where
  counter : typer.counter ≤ typer'.counter
  rigid : typer'.rigid = typer.rigid
  lessons : Lessons (C.Fit typer'.counter) typer.classes typer'.classes

def Typer.Sound (C : Contract) (typer : Typer) : Prop :=
  Sane (C.Fit typer.counter) typer.classes

namespace Typer

variable {C : Contract} {typer typer' typer'' : Typer}

theorem Learned.refl (C : Contract) (typer : Typer) : Learned C typer typer := ⟨le_rfl, rfl, .refl⟩

theorem Learned.trans (first : Learned C typer typer') (second : Learned C typer' typer'') :
    Learned C typer typer'' where
  counter := first.counter.trans second.counter
  rigid := second.rigid.trans first.rigid
  lessons := (Lessons.mono (fun _ => C.fit_mono second.counter) first.lessons).trans second.lessons

theorem learned_freshFor (C : Contract) (typer : Typer) (family : Family) (vars : List TypeVar) :
    Learned C typer (typer.freshFor family vars).2 := by
  rw [freshFor_snd]
  exact ⟨Nat.le_add_right _ _, rfl, .refl⟩

theorem Learned.sound (learned : Learned C typer typer') (sound : typer.Sound C) :
    typer'.Sound C :=
  Lessons.sane learned.lessons (sound.mono fun _ => C.fit_mono learned.counter)

theorem Learned.extends (learned : Learned C typer typer') (sound : typer.Sound C) :
    Extends typer.classes typer'.classes :=
  Lessons.extends learned.lessons (sound.mono fun _ => C.fit_mono learned.counter)

theorem Learned.fit (learned : Learned C typer typer') {t : Term} (fit : C.Fit typer.counter t) :
    C.Fit typer'.counter t :=
  C.fit_mono learned.counter fit

end Typer

open Typer (Learned)

namespace Typing

variable {C : Contract} {ε α β : Type}

/-- A run leaves a typer that has learned, and after success one of which more is true. -/
inductive Keeps (C : Contract) (typer : Typer) (post : α → Typer → Prop) :
    EStateM.Result ε Session α → Prop
  | ok {a : α} {s : Session} : Learned C typer s.typer → post a s.typer →
      Keeps C typer post (.ok a s)
  | error {failure : ε} {s : Session} : Learned C typer s.typer →
      Keeps C typer post (.error failure s)

theorem Keeps.bind {typer : Typer} {work : EStateM ε Session α} {next : α → EStateM ε Session β}
    {middle : α → Typer → Prop} {post : β → Typer → Prop} {s : Session}
    (first : Keeps C typer middle (work s))
    (second : ∀ a s', Learned C typer s'.typer → middle a s'.typer →
      Keeps C s'.typer post (next a s')) :
    Keeps C typer post ((work >>= next) s) := by
  show Keeps C typer post (EStateM.bind work next s)
  unfold EStateM.bind
  generalize work s = result at first
  cases first with
  | @ok a s' learned holds =>
    have rest := second a s' learned holds
    dsimp only
    generalize next a s' = final at rest
    cases rest with
    | ok later post => exact .ok (learned.trans later) post
    | error later => exact .error (learned.trans later)
  | error learned => exact .error learned

theorem Keeps.imp {typer : Typer} {post post' : α → Typer → Prop}
    {result : EStateM.Result ε Session α} (keeps : Keeps C typer post result)
    (weaker : ∀ a typer', Learned C typer typer' → post a typer' → post' a typer') :
    Keeps C typer post' result := by
  cases keeps with
  | ok learned holds => exact .ok learned (weaker _ _ learned holds)
  | error learned => exact .error learned

theorem Keeps.learned {typer : Typer} {post : Unit → Typer → Prop}
    {result : EStateM.Result UnifyFailure Session Unit} (keeps : Keeps C typer post result) :
    Learned C typer (remains result).typer := by
  cases keeps with
  | ok learned _ => exact learned
  | error learned => exact learned

theorem Keeps.success {typer : Typer} {post : α → Typer → Prop} {a : α} {s : Session}
    (keeps : Keeps C typer post (.ok a s : EStateM.Result ε Session α)) :
    Learned C typer s.typer ∧ post a s.typer := by
  cases keeps with
  | ok learned holds => exact ⟨learned, holds⟩

def Honours (C : Contract) (unify : Term → Term → Typing Unit) : Prop :=
  ∀ a b s, s.typer.Sound C → C.Fit s.typer.counter a → C.Fit s.typer.counter b →
    Keeps C s.typer (fun _ typer => C.Agree typer.classes a b) (unify a b s)

section Steps

variable {unify : Term → Term → Typing Unit} {s : Session}

theorem keeps_unifyEach (honours : Honours C unify) (as bs : List Term) (sound : s.typer.Sound C)
    (left : ∀ a ∈ as, C.Fit s.typer.counter a) (right : ∀ b ∈ bs, C.Fit s.typer.counter b) :
    Keeps C s.typer (fun _ typer => ∀ pair ∈ as.zip bs, C.Agree typer.classes pair.1 pair.2)
      (unifyEach unify as bs s) := by
  have fits : ∀ pair ∈ as.zip bs, C.Fit s.typer.counter pair.1 ∧ C.Fit s.typer.counter pair.2 := by
    intro pair member
    obtain ⟨first, second⟩ := List.of_mem_zip (show (pair.1, pair.2) ∈ _ from member)
    exact ⟨left _ first, right _ second⟩
  clear left right
  rw [unifyEach]
  generalize as.zip bs = pairs at fits ⊢
  induction pairs generalizing s with
  | nil => exact .ok (.refl C _) (by simp)
  | cons pair pairs ih =>
    obtain ⟨⟨fitA, fitB⟩, later⟩ := List.forall_mem_cons.mp fits
    refine (honours pair.1 pair.2 s sound fitA fitB).bind fun _ s' learned agree => ?_
    have sound' := learned.sound sound
    have rest := ih sound' fun other member =>
      ⟨learned.fit (later other member).1, learned.fit (later other member).2⟩
    refine rest.imp fun _ typer' learned' agrees => List.forall_mem_cons.mpr ⟨?_, agrees⟩
    exact C.agree_later (learned'.extends sound') agree

private theorem keeps_permit (v : TypeVar) (t : Term) :
    Keeps C s.typer (fun _ typer => typer = s.typer ∧ s.typer.classes.occurs v t = false)
      (permit v t s) := by
  show Keeps C s.typer _ ((if s.typer.isRigid v = true then clash .rigid (.use v) t
    else if s.typer.classes.occurs v t = true then clash .recursive (.use v) t
    else pure () : Typing Unit) s)
  by_cases rigid : s.typer.isRigid v = true
  · rw [if_pos rigid]
    exact .error (.refl C _)
  · rw [if_neg rigid]
    by_cases occurs : s.typer.classes.occurs v t = true
    · rw [if_pos occurs]
      exact .error (.refl C _)
    · rw [if_neg occurs]
      exact .ok (.refl C _) ⟨rfl, by simpa using occurs⟩

theorem not_leadsTo_of_occurs (sound : s.typer.Sound C) {v : TypeVar} {t : Term}
    (free : s.typer.classes.occurs v t = false) :
    ∀ y ∈ t.freeVars, ¬LeadsTo s.typer.classes y v := by
  intro y member leads
  have occurs := (Classes.occurs_iff sound.tidy sound.acyclic v t).mpr ⟨y, member, leads⟩
  rw [free] at occurs
  cases occurs

private theorem keeps_join {v w : TypeVar} (sound : s.typer.Sound C)
    (fitV : C.Fit s.typer.counter (.use v)) (fitW : C.Fit s.typer.counter (.use w))
    (unbound : s.typer.classes.bound? v = none) (apart : ¬LeadsTo s.typer.classes w v) :
    Keeps C s.typer (fun _ typer => C.Agree typer.classes (.use v) (.use w)) (join v w s) := by
  obtain ⟨-, same, -, -⟩ := Classes.join_spec sound.tidy w unbound
  refine .ok ⟨le_rfl, rfl, .single (.join fitV fitW unbound apart)⟩ (C.agree_same ?_)
  exact (same v w).mpr (.inr (.inl ⟨Classes.same_self _ v, Classes.same_self _ w⟩))

private theorem keeps_equate {v w : TypeVar} (sound : s.typer.Sound C)
    (fitV : C.Fit s.typer.counter (.use v)) (fitW : C.Fit s.typer.counter (.use w))
    (unbound : s.typer.classes.bound? v = none) :
    Keeps C s.typer (fun _ typer => C.Agree typer.classes (.use v) (.use w)) (equate v w s) := by
  rw [equate_apply]
  by_cases same : s.typer.classes.same v w = true
  · rw [if_pos same]
    exact .ok (.refl C _) (C.agree_same same)
  · rw [if_neg same]
    cases bound : s.typer.classes.bound? w with
    | some target =>
      refine (keeps_permit v target).bind fun _ s' _ permitted => ?_
      obtain ⟨typer, occurs⟩ := permitted
      have apart := not_leadsTo_of_occurs sound occurs
      rw [← typer] at sound fitV fitW unbound apart same bound
      refine keeps_join sound fitV fitW unbound fun leads => ?_
      cases leads with
      | same h => exact same (Classes.same_symm h)
      | through here free rest =>
        rw [bound] at here
        cases here
        exact apart _ free rest
    | none =>
      dsimp only
      split
      · exact .error (.refl C _)
      · refine keeps_join sound fitV fitW unbound fun leads => ?_
        cases leads with
        | same h => exact same (Classes.same_symm h)
        | through here _ _ =>
          rw [bound] at here
          cases here

private theorem keeps_bind {v : TypeVar} {t : Term} (sound : s.typer.Sound C)
    (fitV : C.Fit s.typer.counter (.use v)) (fit : C.Fit s.typer.counter t)
    (unbound : s.typer.classes.bound? v = none) (notUse : ∀ w, t ≠ .use w) :
    Keeps C s.typer (fun _ typer => C.Agree typer.classes (.use v) t)
      ((permit v t >>= fun _ => bindTo v t) s) := by
  refine (keeps_permit v t).bind fun _ s' _ permitted => ?_
  obtain ⟨typer, occurs⟩ := permitted
  have apart := not_leadsTo_of_occurs sound occurs
  rw [← typer] at sound fitV fit unbound apart
  obtain ⟨-, -, bounds, -⟩ := Classes.set_spec sound.tidy v (some t)
  refine .ok ⟨le_rfl, rfl, .single (.bind fitV fit unbound notUse apart)⟩ (C.agree_bound ?_)
  exact (bounds v).trans (if_pos (Classes.same_self _ v))

private theorem keeps_learn {v : TypeVar} {t : Term} (sound : s.typer.Sound C)
    (fitV : C.Fit s.typer.counter (.use v)) (fit : C.Fit s.typer.counter t)
    (unbound : s.typer.classes.bound? v = none) :
    Keeps C s.typer (fun _ typer => C.Agree typer.classes (.use v) t) (learn v t s) := by
  cases t with
  | use w => exact keeps_equate sound fitV fit unbound
  | con head args => exact keeps_bind sound fitV fit unbound (by simp)
  | scheme quantifier vars body => exact keeps_bind sound fitV fit unbound (by simp)
  | func typeParams params result => exact keeps_bind sound fitV fit unbound (by simp)

private theorem keeps_unifyVar (honours : Honours C unify) {v : TypeVar} {t : Term}
    (sound : s.typer.Sound C) (fitV : C.Fit s.typer.counter (.use v))
    (fit : C.Fit s.typer.counter t) :
    Keeps C s.typer (fun _ typer => C.Agree typer.classes (.use v) t) (unifyVar unify v t s) := by
  rw [unifyVar_apply]
  cases bound : s.typer.classes.bound? v with
  | none => exact keeps_learn sound fitV fit bound
  | some target =>
    refine (honours target t s sound (sound.bound bound).1 fit).imp fun _ typer learned agree => ?_
    exact C.agree_trans (C.agree_bound ((learned.extends sound).bound bound)) agree

private theorem keeps_unifyOpened (honours : Honours C unify) {other : Term}
    {quantifier : Quantifier} {vars : List TypeVar} {body : Term} (sound : s.typer.Sound C)
    (fit : C.Fit s.typer.counter other)
    (fitScheme : C.Fit s.typer.counter (.scheme quantifier vars body)) :
    Keeps C s.typer (fun _ typer => C.Agree typer.classes (.scheme quantifier vars body) other)
      (unifyOpened unify other quantifier vars body s) := by
  have named := Typer.learned_freshFor C s.typer (familyOf quantifier) vars
  have opened : Keeps C s.typer
      (fun t typer => typer = (s.typer.freshFor (familyOf quantifier) vars).2 ∧
        t = body.subst (s.typer.freshFor (familyOf quantifier) vars).1)
      (openTerm (familyOf quantifier) vars body s) := .ok named ⟨rfl, rfl⟩
  refine opened.bind fun t s' learned here => ?_
  obtain ⟨typer, rfl⟩ := here
  refine (honours other _ s' (learned.sound sound) (learned.fit fit) ?_).imp fun _ typer' _ _ => ?_
  · rw [typer]
    exact C.fit_scheme s.typer (familyOf quantifier) fitScheme
  · exact C.agree_scheme fitScheme _ _

private theorem keeps_unifyFunctions (honours : Honours C unify) {vs ws : List TypeVar}
    {ps qs : List Term} {r t : Term} (sound : s.typer.Sound C)
    (left : C.Fit s.typer.counter (.func vs ps r))
    (right : C.Fit s.typer.counter (.func ws qs t)) :
    Keeps C s.typer (fun _ typer => C.Agree typer.classes (.func vs ps r) (.func ws qs t))
      (unifyFunctions unify vs ps r ws qs t s) := by
  have opens : ∀ (s : Session) {us : List TypeVar} {ns : List Term} {n : Term},
      C.Fit s.typer.counter (.func us ns n) → Keeps C s.typer
        (fun ts typer => ∀ x ∈ ts, C.Fit typer.counter x)
        (openTerms .unification us (ns ++ [n]) s) := by
    intro s us ns n fit
    refine .ok (Typer.learned_freshFor C s.typer .unification us) fun x member => ?_
    obtain ⟨y, part, rfl⟩ := List.mem_map.mp member
    exact C.fit_func s.typer fit y part
  refine (opens s left).bind fun lefts s₁ learned₁ fits₁ => ?_
  refine (opens s₁ (learned₁.fit right)).bind fun rights s₂ learned₂ fits₂ => ?_
  refine (keeps_unifyEach honours lefts rights (learned₂.sound (learned₁.sound sound))
    (fun x member => learned₂.fit (fits₁ x member)) fits₂).imp fun _ _ _ _ => ?_
  exact C.agree_func _ _ _ _ _ _ _

private theorem learned_of_compareRigid (honours : Honours C unify) {outside : List TypeVar}
    {whole : Clash} {vs ws : List TypeVar} {a b : Term} (sound : s.typer.Sound C)
    (left : C.Fit s.typer.counter (.scheme .every vs a))
    (right : C.Fit s.typer.counter (.scheme .every ws b)) {s' : Session}
    (success : compareRigid unify outside whole vs a ws b s = .ok () s') :
    Learned C s.typer s'.typer := by
  let made := s.typer.freshFor .existential vs
  let skolems := made.1.flatMap fun entry => entry.2.freeVars
  let strict : Typer := { made.2 with rigid := s.typer.rigid ++ skolems }
  let opened := strict.freshFor .existential ws
  have run : (unify (a.subst made.1) (b.subst opened.1) >>= fun _ => do
      if (← current).escapes skolems outside then throw (.clash whole)
      change fun typer => { typer with rigid := s.typer.rigid })
        { s with typer := opened.2 } = .ok () s' := success
  obtain ⟨_, s₁, unified, rest⟩ := bind_eq_ok run
  have named : Learned C s.typer made.2 := Typer.learned_freshFor C _ _ _
  have named' : Learned C strict opened.2 := Typer.learned_freshFor C _ _ _
  have soundStrict : strict.Sound C := named.sound sound
  have fitA : C.Fit opened.2.counter (a.subst made.1) :=
    named'.fit (C.fit_scheme s.typer .existential left)
  have fitB : C.Fit opened.2.counter (b.subst opened.1) :=
    C.fit_scheme strict .existential (named.fit right)
  have inner := honours _ _ { s with typer := opened.2 } (named'.sound soundStrict) fitA fitB
  rw [unified] at inner
  have learned : Learned C opened.2 s₁.typer := inner.learned
  have rigid : Learned C s.typer { s₁.typer with rigid := s.typer.rigid } := by
    obtain ⟨counter, -, lessons⟩ := (named'.trans learned : Learned C strict s₁.typer)
    exact ⟨named.counter.trans counter, rfl,
      (Lessons.mono (fun _ => C.fit_mono counter) named.lessons).trans lessons⟩
  change (if s₁.typer.escapes skolems outside = true then
    throw (.clash whole) >>= fun _ => change fun typer => { typer with rigid := s.typer.rigid }
    else change fun typer => { typer with rigid := s.typer.rigid } : Typing Unit) s₁ = _ at rest
  by_cases escapes : s₁.typer.escapes skolems outside = true
  · rw [if_pos escapes] at rest
    cases rest
  · rw [if_neg escapes] at rest
    cases rest
    exact rigid

private theorem keeps_firstOf {first second : Typing Unit} {post : Unit → Typer → Prop}
    (always : ∀ typer, post () typer)
    (one : ∀ s₁ s', s₁.typer = s.typer → first s₁ = .ok () s' → Learned C s.typer s'.typer)
    (two : ∀ s₁ s', s₁.typer = s.typer → second s₁ = .ok () s' → Learned C s.typer s'.typer) :
    Keeps C s.typer post (firstOf first second s) := by
  unfold firstOf
  split
  · next t tried => exact .ok (one s.trial t rfl tried) (always _)
  · exact .error (.refl C _)
  · next c t _ =>
    split
    · next u tried => exact .ok (two (s.discard t.report).trial u rfl tried) (always _)
    · exact .error (.refl C _)
    · exact .error (.refl C _)

private theorem keeps_unifySchemes (honours : Honours C unify) {vs ws : List TypeVar} {a b : Term}
    (sound : s.typer.Sound C) (left : C.Fit s.typer.counter (.scheme .every vs a))
    (right : C.Fit s.typer.counter (.scheme .every ws b)) :
    Keeps C s.typer
      (fun _ typer => C.Agree typer.classes (.scheme .every vs a) (.scheme .every ws b))
      (unifySchemes unify vs a ws b s) := by
  refine keeps_firstOf (s := s) (fun typer => C.agree_scheme left _ _) ?_ ?_
  · intro s₁ s' same success
    rw [← same] at sound left right ⊢
    exact learned_of_compareRigid honours sound left right success
  · intro s₁ s' same success
    rw [← same] at sound left right ⊢
    exact learned_of_compareRigid honours sound right left success

private theorem honours_unifyStep (honours : Honours C unify) : Honours C (unifyStep unify) := by
  intro a b s sound fitA fitB
  have flipped {result : EStateM.Result UnifyFailure Session Unit}
      (keeps : Keeps C s.typer (fun _ typer => C.Agree typer.classes b a) result) :
      Keeps C s.typer (fun _ typer => C.Agree typer.classes a b) result :=
    keeps.imp fun _ _ _ => C.agree_symm
  unfold unifyStep
  by_cases equal : a = b
  · rw [if_pos equal, equal]
    exact .ok (.refl C _) (C.agree_refl _ b)
  · rw [if_neg equal]
    cases a with
    | use v => exact keeps_unifyVar honours sound fitA fitB
    | scheme quantifier vars body =>
      cases b with
      | use w => exact flipped (keeps_unifyVar honours sound fitB fitA)
      | scheme quantifier' vars' body' =>
        cases quantifier with
        | every =>
          cases quantifier' with
          | every => exact keeps_unifySchemes honours sound fitA fitB
          | some => exact keeps_unifyOpened honours sound fitB fitA
        | some => cases quantifier' <;> exact keeps_unifyOpened honours sound fitB fitA
      | con head args => cases quantifier <;> exact keeps_unifyOpened honours sound fitB fitA
      | func ws qs t => cases quantifier <;> exact keeps_unifyOpened honours sound fitB fitA
    | con head args =>
      cases b with
      | use w => exact flipped (keeps_unifyVar honours sound fitB fitA)
      | scheme quantifier vars body => exact flipped (keeps_unifyOpened honours sound fitA fitB)
      | func ws qs t => exact .error (.refl C _)
      | con head' args' =>
        dsimp only
        by_cases heads : head = head'
        · subst heads
          rw [if_neg (not_not.mpr rfl)]
          by_cases count : args.length = args'.length
          · rw [if_neg (not_not.mpr count)]
            refine (keeps_unifyEach honours args args' sound (C.fit_arg fitA)
              (C.fit_arg fitB)).imp fun _ typer _ agrees => C.agree_con ?_
            exact List.forall₂_iff_zip.mpr ⟨count, fun member => agrees _ member⟩
          · rw [if_pos count]
            exact .error (.refl C _)
        · rw [if_pos heads]
          exact .error (.refl C _)
    | func vs ps r =>
      cases b with
      | use w => exact flipped (keeps_unifyVar honours sound fitB fitA)
      | scheme quantifier vars body => exact flipped (keeps_unifyOpened honours sound fitA fitB)
      | con head args => exact .error (.refl C _)
      | func ws qs t =>
        dsimp only
        by_cases count : ps.length = qs.length
        · rw [if_pos count]
          exact keeps_unifyFunctions honours sound fitA fitB
        · rw [if_neg count]
          exact .error (.refl C _)

end Steps

theorem honours_unifyWithin (C : Contract) (depth : Nat) : Honours C (unifyWithin depth) := by
  induction depth with
  | zero => exact fun _ _ _ _ _ _ => .error (.refl C _)
  | succ depth ih => exact honours_unifyStep ih

theorem honours_unify (C : Contract) : Honours C unify :=
  fun a b s => honours_unifyWithin C (s.typer.depthFor a b) a b s

end Typing

end TypedCalls
