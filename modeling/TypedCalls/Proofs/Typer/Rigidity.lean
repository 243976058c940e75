import TypedCalls.Proofs.Typer.Deepening

/-!
What rigid variables do to a run.

On first-order terms a run with rigid variables does what it would do without them, until it is
about to bind one of them or to join two of them. What it would have learned then has no solution
that keeps the rigid variables apart (`filters_unifyWithin`). So rigid variables act as constants,
each different from all others and from every term that is no variable.
-/

set_option autoImplicit false

namespace TypedCalls

open Classes (Satisfies)
open Problem (Sane Extends)

/-- First-order terms are compared by first-order terms. -/
def Requirement.firstOrder : Requirement where
  Fit _ := Term.FirstOrder
  fit_mono _ first := first
  fit_arg first := (Term.builtFrom_con.mp first).2
  fit_scheme _ _ _ _ _ first := first.elim
  fit_func _ _ _ _ first t member := by
    obtain ⟨rfl, parts⟩ := Term.builtFrom_func.mp first
    exact Term.subst_nil t ▸ Term.builtFrom_fill (parts t member) fun _ _ => True.intro

def Contract.firstOrder : Contract := Requirement.firstOrder.contract

private theorem Term.FirstOrder.fill_ne_use {θ : TypeVar → Term} {t : Term} (first : t.FirstOrder)
    (notUse : ∀ w, t ≠ .use w) (x : TypeVar) : t.fill θ ≠ .use x := by
  cases t with
  | con head args =>
    rw [fill_con_of_ne θ (builtFrom_con.mp first).1]
    simp
  | use v => exact absurd rfl (notUse v)
  | scheme quantifier vars body => exact first.elim
  | func typeParams params result =>
    obtain ⟨rfl, -⟩ := builtFrom_func.mp first
    rw [fill_func]
    simp

/-- Rigid variables are taken to variables, different ones to different ones. -/
structure Separates (θ : TypeVar → Term) (rigid : List TypeVar) : Prop where
  var : ∀ r ∈ rigid, ∃ x, θ r = .use x
  inj : ∀ r ∈ rigid, ∀ r' ∈ rigid, θ r = θ r' → r = r'

namespace Classes

/-- Rigid variables are unbound, and no two of them are known to be the same. -/
structure Spares (s : Classes) (rigid : List TypeVar) : Prop where
  unbound : ∀ r ∈ rigid, s.bound? r = none
  apart : ∀ r ∈ rigid, ∀ r' ∈ rigid, s.same r r' = true → r = r'

variable {s s' : Classes} {rigid : List TypeVar} {θ : TypeVar → Term}

theorem Satisfies.earlier (satisfies : Satisfies θ s') (tidy : Tidy s) (tidy' : Tidy s')
    (extension : Extends s s') : Satisfies θ s := by
  obtain ⟨equal, stands⟩ := (satisfies_iff tidy').mp satisfies
  exact (satisfies_iff tidy).mpr
    ⟨fun x y same => equal x y (extension.same same),
      fun x t bound => stands x t (extension.bound bound)⟩

private theorem Spares.separates_solution (spares : s.Spares rigid) (tidy : Tidy s) :
    Separates s.solution rigid := by
  have var (r : TypeVar) (member : r ∈ rigid) : s.solution r = .use (s.representative r) := by
    rw [solution, reading_of_unbound (spares.unbound r member), identify, Term.fill_use]
  refine ⟨fun r member => ⟨_, var r member⟩, fun r member r' member' equal => ?_⟩
  rw [var r member, var r' member'] at equal
  injection equal with names
  have here := same_representative tidy r
  rw [names] at here
  exact spares.apart r member r' member' (same_trans here (same_symm (same_representative tidy r')))

end Classes

open Classes (Spares)

namespace Typing

/-- Two sessions that know the same, in the first of which some variables are rigid. -/
structure Beside (rigid : List TypeVar) (s s' : Session) : Prop where
  strict : s.typer.rigid = rigid
  loose : s'.typer.rigid = []
  classes : s'.typer.classes = s.typer.classes
  sound : s.typer.Sound .firstOrder
  spares : s.typer.classes.Spares rigid

/-- How a run with rigid variables ends beside one without: both have learned the same, or the first
clashes and no solution of what the second has learned keeps the rigid variables apart. -/
inductive Filtered (rigid : List TypeVar) : EStateM.Result UnifyFailure Session Unit →
    EStateM.Result UnifyFailure Session Unit → Prop
  | ok {s s' : Session} : s'.typer.classes = s.typer.classes → s.typer.classes.Spares rigid →
      Filtered rigid (.ok () s) (.ok () s')
  | clash {clash : Clash} {s : Session} {result : EStateM.Result UnifyFailure Session Unit} :
      (∀ s', result = .ok () s' → ∀ θ, Satisfies θ s'.typer.classes → ¬Separates θ rigid) →
      Filtered rigid (.error (.clash clash) s) result
  | stopped {s s' : Session} : Filtered rigid (.error .tooDeep s) (.error .tooDeep s')

def Filters (rigid : List TypeVar) (unify : Term → Term → Typing Unit) : Prop :=
  ∀ a b s s', a.FirstOrder → b.FirstOrder → Beside rigid s s' →
    Filtered rigid (unify a b s) (unify a b s')

variable {rigid : List TypeVar} {s s' : Session} {unify : Term → Term → Typing Unit}

private theorem Filtered.failed {clash clash' : Clash} {t t' : Session} :
    Filtered rigid (.error (.clash clash) t) (.error (.clash clash') t') :=
  .clash fun _ => nofun

private theorem permit_cases (s : Session) (v : TypeVar) (t : Term) (next : Typing Unit) :
    (s.typer.isRigid v = true ∧
        (permit v t >>= fun _ => next) s = .error (.clash ⟨.rigid, .use v, t⟩) s) ∨
      s.typer.isRigid v = false ∧ ((permit v t >>= fun _ => next) s =
        if s.typer.classes.occurs v t = true then .error (.clash ⟨.recursive, .use v, t⟩) s
        else next s) := by
  have run : (permit v t >>= fun _ => next) s =
      EStateM.bind (if s.typer.isRigid v = true then clash .rigid (.use v) t
        else if s.typer.classes.occurs v t = true then clash .recursive (.use v) t
        else pure ()) (fun _ => next) s := rfl
  cases isRigid : s.typer.isRigid v with
  | true =>
    rw [isRigid, if_pos rfl] at run
    exact .inl ⟨rfl, run⟩
  | false =>
    rw [isRigid, if_neg Bool.false_ne_true] at run
    refine .inr ⟨rfl, run.trans ?_⟩
    split
    · rfl
    · rfl

namespace Beside

private theorem sound' (beside : Beside rigid s s') : s'.typer.Sound .firstOrder := by
  have sound := beside.sound
  unfold Typer.Sound at sound ⊢
  rw [beside.classes]
  exact sound

private theorem isRigid_iff (beside : Beside rigid s s') {v : TypeVar} :
    s.typer.isRigid v = true ↔ ∃ r ∈ rigid, s.typer.classes.same v r = true := by
  rw [Typer.isRigid, beside.strict, List.any_eq_true]

private theorem join (beside : Beside rigid s s') {v w : TypeVar}
    (unbound : s.typer.classes.bound? v = none)
    (unbound' : s.typer.isRigid v = true → s.typer.classes.bound? w = none)
    (one : ¬(s.typer.isRigid v = true ∧ s.typer.isRigid w = true)) :
    Filtered rigid (Typing.join v w s) (Typing.join v w s') := by
  obtain ⟨-, same, bounds, -⟩ := Classes.join_spec beside.sound.tidy w unbound
  have rigid_of_same {r x : TypeVar} (member : r ∈ rigid)
      (equal : s.typer.classes.same r x = true) : s.typer.isRigid x = true :=
    beside.isRigid_iff.mpr ⟨r, member, Classes.same_symm equal⟩
  refine .ok ?_ ⟨fun r member => ?_, fun r member r' member' equal => ?_⟩
  · show s'.typer.classes.join v w = s.typer.classes.join v w
    rw [beside.classes]
  · refine (bounds r).trans ?_
    split
    · next here =>
      rcases here with first | second
      · exact unbound' (rigid_of_same member first)
      · rw [← Classes.bound?_of_same second, beside.spares.unbound r member]
    · exact beside.spares.unbound r member
  · rcases (same r r').mp equal with old | ⟨first, second⟩ | ⟨first, second⟩
    · exact beside.spares.apart r member r' member' old
    · exact absurd ⟨rigid_of_same member first, rigid_of_same member' second⟩ one
    · exact absurd ⟨rigid_of_same member' second, rigid_of_same member first⟩ one

private theorem not_separates (beside : Beside rigid s s') {v : TypeVar} {t : Term}
    (isRigid : s.typer.isRigid v = true) (first : t.FirstOrder) (notUse : ∀ w, t ≠ .use w)
    {θ : TypeVar → Term} (known : Satisfies θ s.typer.classes) (equal : θ v = t.fill θ) :
    ¬Separates θ rigid := by
  intro separates
  obtain ⟨r, member, same⟩ := beside.isRigid_iff.mp isRigid
  obtain ⟨x, var⟩ := separates.var r member
  have alike := ((Classes.satisfies_iff beside.sound.tidy).mp known).1 v r same
  exact first.fill_ne_use notUse x (by rw [← equal, alike, var])

end Beside

private theorem filtered_equate (beside : Beside rigid s s') {v w : TypeVar}
    (unbound : s.typer.classes.bound? v = none) :
    Filtered rigid (equate v w s) (equate v w s') := by
  have tidy := beside.sound.tidy
  rw [equate_apply, equate_apply, beside.classes]
  by_cases same : s.typer.classes.same v w = true
  · rw [if_pos same, if_pos same]
    exact .ok beside.classes beside.spares
  · rw [if_neg same, if_neg same]
    cases bound : s.typer.classes.bound? w with
    | some target =>
      dsimp only
      obtain ⟨first, notUse⟩ := beside.sound.bound bound
      rw [permit_bind beside.loose, beside.classes]
      rcases permit_cases s v target (join v w) with ⟨isRigid, run⟩ | ⟨free, run⟩
      · rw [run]
        refine .clash fun t success θ satisfies => ?_
        split at success
        · cases success
        · cases success
          replace satisfies : Satisfies θ (s'.typer.classes.join v w) := satisfies
          rw [beside.classes, Classes.satisfies_join tidy w unbound] at satisfies
          have stands := ((Classes.satisfies_iff tidy).mp satisfies.1).2 w target bound
          exact beside.not_separates isRigid first notUse satisfies.1 (satisfies.2.trans stands)
      · rw [run]
        split
        · exact .failed
        · exact beside.join unbound (by simp [free]) (by simp [free])
    | none =>
      dsimp only
      rw [isRigid_eq_false beside.loose, Bool.false_and, if_neg Bool.false_ne_true]
      by_cases both : (s.typer.isRigid v && s.typer.isRigid w) = true
      · rw [if_pos both]
        obtain ⟨rigidV, rigidW⟩ := Bool.and_eq_true_iff.mp both
        obtain ⟨r, member, sameV⟩ := beside.isRigid_iff.mp rigidV
        obtain ⟨r', member', sameW⟩ := beside.isRigid_iff.mp rigidW
        refine .clash fun t success θ satisfies separates => same ?_
        cases success
        replace satisfies : Satisfies θ (s'.typer.classes.join v w) := satisfies
        rw [beside.classes, Classes.satisfies_join tidy w unbound] at satisfies
        obtain ⟨alike, -⟩ := (Classes.satisfies_iff tidy).mp satisfies.1
        have equal : r = r' := separates.inj r member r' member' (by
          rw [← alike v r sameV, satisfies.2, alike w r' sameW])
        exact Classes.same_trans sameV (equal ▸ Classes.same_symm sameW)
      · rw [if_neg both]
        exact beside.join unbound (fun _ => bound) (mt Bool.and_eq_true_iff.mpr both)

private theorem filtered_learn (beside : Beside rigid s s') {v : TypeVar} {t : Term}
    (first : t.FirstOrder) (unbound : s.typer.classes.bound? v = none) :
    Filtered rigid (learn v t s) (learn v t s') := by
  have tidy := beside.sound.tidy
  have filtered_bind (notUse : ∀ w, t ≠ .use w) :
      Filtered rigid ((permit v t >>= fun _ => bindTo v t) s)
        ((permit v t >>= fun _ => bindTo v t) s') := by
    rw [permit_bind beside.loose, beside.classes]
    rcases permit_cases s v t (bindTo v t) with ⟨isRigid, run⟩ | ⟨free, run⟩
    · rw [run]
      refine .clash fun t' success θ satisfies => ?_
      split at success
      · cases success
      · cases success
        replace satisfies : Satisfies θ (s'.typer.classes.set v (some t)) := satisfies
        rw [beside.classes, Classes.satisfies_set tidy unbound t] at satisfies
        exact beside.not_separates isRigid first notUse satisfies.1 satisfies.2
    · rw [run]
      split
      · exact .failed
      · obtain ⟨-, same, bounds, -⟩ := Classes.set_spec tidy v (some t)
        refine .ok ?_ ⟨fun r member => ?_, fun r member r' member' equal => ?_⟩
        · show s'.typer.classes.set v (some t) = s.typer.classes.set v (some t)
          rw [beside.classes]
        · refine (bounds r).trans (if_neg fun here => ?_) |>.trans (beside.spares.unbound r member)
          have isRigid := beside.isRigid_iff.mpr ⟨r, member, Classes.same_symm here⟩
          rw [free] at isRigid
          cases isRigid
        · exact beside.spares.apart r member r' member' ((same r r').symm.trans equal)
  cases t with
  | con head args => exact filtered_bind (by simp)
  | use w => exact filtered_equate beside unbound
  | scheme quantifier vars body => exact first.elim
  | func typeParams params result => exact filtered_bind (by simp)

private theorem filtered_unifyVar (filters : Filters rigid unify) (beside : Beside rigid s s')
    {v : TypeVar} {t : Term} (first : t.FirstOrder) :
    Filtered rigid (unifyVar unify v t s) (unifyVar unify v t s') := by
  rw [unifyVar_apply, unifyVar_apply, beside.classes]
  cases bound : s.typer.classes.bound? v with
  | some target => exact filters target t s s' (beside.sound.bound bound).1 first beside
  | none => exact filtered_learn beside first bound

private theorem Filtered.bind {work next : Typing Unit} (first : Filtered rigid (work s) (work s'))
    (second : ∀ t t', work s = .ok () t → work s' = .ok () t' →
      t'.typer.classes = t.typer.classes → t.typer.classes.Spares rigid →
      Filtered rigid (next t) (next t'))
    (later : ∀ t' u', work s' = .ok () t' → next t' = .ok () u' → ∀ θ,
      Satisfies θ u'.typer.classes → Satisfies θ t'.typer.classes) :
    Filtered rigid ((work >>= fun _ => next) s) ((work >>= fun _ => next) s') := by
  show Filtered rigid (EStateM.bind work (fun _ => next) s) (EStateM.bind work (fun _ => next) s')
  unfold EStateM.bind
  cases strict : work s with
  | ok _ t =>
    cases loose : work s' with
    | ok _ t' =>
      rw [strict, loose] at first
      cases first with
      | ok classes spares => exact second t t' strict loose classes spares
    | error failure t' =>
      rw [strict, loose] at first
      cases first
  | error failure t =>
    cases loose : work s' with
    | ok _ t' =>
      rw [strict, loose] at first
      cases first with
      | clash none =>
        refine .clash fun u' success θ satisfies => ?_
        exact none t' rfl θ (later t' u' loose success θ satisfies)
    | error failure' t' =>
      rw [strict, loose] at first
      cases first with
      | clash => exact .clash fun _ => nofun
      | stopped => exact .stopped

private theorem filtered_unifyEach (filters : Filters rigid unify)
    (honours : Honours .firstOrder unify) {as bs : List Term} (left : ∀ a ∈ as, a.FirstOrder)
    (right : ∀ b ∈ bs, b.FirstOrder) (beside : Beside rigid s s') :
    Filtered rigid (unifyEach unify as bs s) (unifyEach unify as bs s') := by
  induction as generalizing bs s s' with
  | nil => exact .ok beside.classes beside.spares
  | cons a as ih =>
    cases bs with
    | nil => exact .ok beside.classes beside.spares
    | cons b bs =>
      obtain ⟨firstA, left⟩ := List.forall_mem_cons.mp left
      obtain ⟨firstB, right⟩ := List.forall_mem_cons.mp right
      have keeps := honours a b s beside.sound firstA firstB
      have keeps' := honours a b s' beside.sound' firstA firstB
      show Filtered rigid ((unify a b >>= fun _ => unifyEach unify as bs) s)
        ((unify a b >>= fun _ => unifyEach unify as bs) s')
      refine Filtered.bind (filters a b s s' firstA firstB beside)
        (fun t t' strict loose classes spares => ?_) fun t' u' loose success θ satisfies => ?_
      · rw [strict] at keeps
        rw [loose] at keeps'
        have learned := keeps.success.1
        exact ih left right ⟨learned.rigid.trans beside.strict,
          keeps'.success.1.rigid.trans beside.loose, classes, learned.sound beside.sound, spares⟩
      · rw [loose] at keeps'
        have sound := keeps'.success.1.sound beside.sound'
        have rest := keeps_unifyEach honours as bs sound left right
        rw [success] at rest
        have learned := rest.success.1
        exact satisfies.earlier sound.tidy (learned.sound sound).tidy (learned.extends sound)

private theorem filters_unifyStep (filters : Filters rigid unify)
    (honours : Honours .firstOrder unify) : Filters rigid (unifyStep unify) := by
  intro a b s s' firstA firstB beside
  unfold unifyStep
  by_cases equal : a = b
  · rw [if_pos equal]
    exact .ok beside.classes beside.spares
  · rw [if_neg equal]
    cases a with
    | use v => exact filtered_unifyVar filters beside firstB
    | scheme quantifier vars body => exact firstA.elim
    | con head args =>
      cases b with
      | use v => exact filtered_unifyVar filters beside firstA
      | scheme quantifier vars body => exact firstB.elim
      | func typeParams params result => exact .failed
      | con head' args' =>
        dsimp only
        split
        · exact .failed
        · split
          · exact .failed
          · exact filtered_unifyEach filters honours (Term.builtFrom_con.mp firstA).2
              (Term.builtFrom_con.mp firstB).2 beside
    | func vs ps r =>
      cases b with
      | use v => exact filtered_unifyVar filters beside firstA
      | scheme quantifier vars body => exact firstB.elim
      | con head args => exact .failed
      | func ws qs t =>
        obtain ⟨rfl, -⟩ := Term.builtFrom_func.mp firstA
        obtain ⟨rfl, -⟩ := Term.builtFrom_func.mp firstB
        dsimp only
        split
        · exact filtered_unifyEach filters honours (fun _ => Term.builtFrom_opened firstA)
            (fun _ => Term.builtFrom_opened firstB) beside
        · exact .failed

/-- On first-order terms rigid variables only filter, however deep the run may go. -/
theorem filters_unifyWithin (rigid : List TypeVar) (depth : Nat) :
    Filters rigid (unifyWithin depth) := by
  induction depth with
  | zero => exact fun _ _ _ _ _ _ _ => .stopped
  | succ depth ih => exact filters_unifyStep ih (honours_unifyWithin .firstOrder depth)

theorem unifyWithin_rigid_cases {a b : Term} (sound : s.typer.Sound .firstOrder)
    (spares : s.typer.classes.Spares s.typer.rigid) (firstA : a.FirstOrder) (firstB : b.FirstOrder)
    {depth : Nat} (enough : s.typer.depthFor a b ≤ depth) :
    (∃ s', unifyWithin depth a b s = .ok () s' ∧ ∃ θ : TypeVar → Term, (∀ x, (θ x).FirstOrder) ∧
        Satisfies θ s.typer.classes ∧ Separates θ s.typer.rigid ∧ a.fill θ = b.fill θ) ∨
      ∃ clash s', unifyWithin depth a b s = .error (.clash clash) s' ∧
        ∀ θ, Satisfies θ s.typer.classes → Separates θ s.typer.rigid → a.fill θ ≠ b.fill θ := by
  let loose : Session := { s with typer := { s.typer with rigid := [] } }
  have deeper := deepens_unifyWithin enough a b
  have filtered := filters_unifyWithin s.typer.rigid depth a b s loose firstA firstB
    ⟨rfl, rfl, rfl, sound, spares⟩
  rcases unify_cases (s := loose) rfl sound firstA firstB with
    ⟨t, success, solutions⟩ | ⟨clash, t, failure, none⟩
  · have ran := deeper.result success nofun
    have after : Sane Term.FirstOrder t.typer.classes := by
      have keeps := honours_unifyWithin .firstOrder depth a b loose sound firstA firstB
      rw [ran] at keeps
      exact keeps.success.1.sound sound
    rw [ran] at filtered
    generalize unifyWithin depth a b s = result at filtered
    cases filtered with
    | @ok u _ classes spares' =>
      have solves := Classes.satisfies_solution after.tidy after.acyclic fun x u bound =>
        (after.bound bound).1.quantifierFree
      obtain ⟨known, equal⟩ := (solutions _).mpr solves
      refine .inl ⟨u, rfl, t.typer.classes.solution, ?_, known, ?_, equal⟩
      · exact Classes.builtFrom_solution after.tidy after.acyclic fun x u bound =>
          (after.bound bound).1
      · rw [← classes] at spares'
        exact spares'.separates_solution after.tidy
    | @clash c u _ refused =>
      refine .inr ⟨c, u, rfl, fun θ known separates equal => ?_⟩
      exact refused t rfl θ ((solutions θ).mp ⟨known, equal⟩) separates
  · rw [deeper.result failure nofun] at filtered
    generalize unifyWithin depth a b s = result at filtered
    cases filtered with
    | @clash c u _ refused => exact .inr ⟨c, u, rfl, fun θ known _ equal => none θ ⟨known, equal⟩⟩

end Typing

end TypedCalls
