import TypedCalls.Proofs.Typer.Deepening
import TypedCalls.Proofs.Typer.Twins

/-!
Unification of twins, in either order.

Twins that compare the same plain terms stay twins, whether the terms come in the same order or the
other way round. Of the two typers the first may have more rigid variables; then its success is
success for the second, and where the second succeeds the first does not stop for its depth
(`Agrees`). Both halves are needed at two universal schemes: either way of comparing them is stricter
than a comparison with nothing rigid, so all ways that succeed lead to twins of the same typer, and
none of them stops.
-/

set_option autoImplicit false

namespace TypedCalls

open Classes (Settles settles_set settles_join merges_join)
open Typer (Twins Stricter Blocks)
open TypeVar (Older numbered)

/-- Twins after both have worked on: known names stay, and what was rigid is still unbound. -/
structure Typer.Onward (δ : Discipline) (π ρ : Renaming) (σ τ σ' τ' : Typer) : Prop where
  known : ∀ v, Older σ.counter v → Older τ.counter (π v) → ρ v = π v
  twins : Twins δ ρ σ' τ'
  unbound : ∀ r ∈ σ.rigid, σ'.classes.bound? r = none
  counter : σ.counter ≤ σ'.counter
  counter' : τ.counter ≤ τ'.counter
  rigid : σ'.rigid = σ.rigid
  rigid' : τ'.rigid = τ.rigid

def Typer.Together (δ : Discipline) (π : Renaming) (σ τ σ' τ' : Typer) : Prop :=
  ∃ ρ, Onward δ π ρ σ τ σ' τ'

namespace Typer

variable {δ : Discipline} {π ρ ρ' : Renaming} {σ τ σ' τ' σ'' τ'' : Typer}

private theorem Onward.trans (first : Onward δ π ρ σ τ σ' τ')
    (second : Onward δ ρ ρ' σ' τ' σ'' τ'') : Onward δ π ρ' σ τ σ'' τ'' where
  known v older older' := by
    have here := first.known v older older'
    rw [← here]
    refine second.known v (older.mono first.counter) ?_
    rw [here]
    exact older'.mono first.counter'
  twins := second.twins
  unbound r member := second.unbound r (first.rigid ▸ member)
  counter := first.counter.trans second.counter
  counter' := first.counter'.trans second.counter'
  rigid := second.rigid.trans first.rigid
  rigid' := second.rigid'.trans first.rigid'

private theorem Onward.stricter (onward : Onward δ π ρ σ τ σ' τ') (stricter : Stricter δ π σ τ) :
    Stricter δ ρ σ' τ' where
  toTwins := onward.twins
  unbound r member := onward.unbound r (onward.rigid ▸ member)
  rigid r member := by
    obtain ⟨u, inside, rfl, older, older'⟩ := stricter.rigid r (onward.rigid' ▸ member)
    exact ⟨u, onward.rigid ▸ inside, onward.known u older older', older.mono onward.counter,
      older'.mono onward.counter'⟩

private theorem Onward.shared (onward : Onward δ π ρ σ τ σ' τ') {t : Term}
    (shared : t.Shared δ π σ τ) : t.Shared δ ρ σ' τ' :=
  shared.later onward.known onward.counter onward.counter'

theorem Stricter.onward (stricter : Stricter δ π σ τ) : Onward δ π π σ τ σ τ where
  known _ _ _ := rfl
  twins := stricter.toTwins
  unbound := stricter.unbound
  counter := le_rfl
  counter' := le_rfl
  rigid := rfl
  rigid' := rfl

private theorem Stricter.opened (stricter : Stricter δ π σ τ) {c d : Nat} (le : σ.counter ≤ c)
    (le' : τ.counter ≤ d) (known : ∀ v, Older σ.counter v → Older τ.counter (π v) → ρ v = π v) :
    Onward δ π ρ σ τ { σ with counter := c } { τ with counter := d } where
  known := known
  twins := (stricter.congr known).later le le' σ.rigid τ.rigid
  unbound := stricter.unbound
  counter := le
  counter' := le'
  rigid := rfl
  rigid' := rfl

theorem Stricter.self (stricter : Stricter δ π σ τ) : Stricter δ .refl τ τ where
  toTwins := .refl stricter.right
  unbound r member := by
    obtain ⟨u, inside, rfl, -⟩ := stricter.rigid r member
    exact (stricter.unbound_iff u).mpr (stricter.unbound u inside)
  rigid r member := by
    obtain ⟨u, -, -, -, older⟩ := stricter.rigid r member
    exact ⟨r, member, rfl, older, older⟩

end Typer

open Typer (Onward Together)

namespace Typing

/-- How the outcomes of two typers compare, of which the first is the stricter. -/
inductive Agrees (R : Typer → Typer → Prop) :
    EStateM.Result UnifyFailure Session Unit → EStateM.Result UnifyFailure Session Unit → Prop
  | ok {s s' : Session} : R s.typer s'.typer → Agrees R (.ok () s) (.ok () s')
  | clash {c : Clash} {s : Session} {result : EStateM.Result UnifyFailure Session Unit} :
      Agrees R (.error (.clash c) s) result
  | failed {failure failure' : UnifyFailure} {s s' : Session} :
      Agrees R (.error failure s) (.error failure' s')

namespace Agrees

variable {R R' : Typer → Typer → Prop}
  {result result' : EStateM.Result UnifyFailure Session Unit}

private theorem imp (agrees : Agrees R result result') (weaker : ∀ {σ τ}, R σ τ → R' σ τ) :
    Agrees R' result result' := by
  cases agrees with
  | ok related => exact .ok (weaker related)
  | clash => exact .clash
  | failed => exact .failed

theorem success {s : Session} (agrees : Agrees R (.ok () s) result') :
    ∃ s', result' = .ok () s' ∧ R s.typer s'.typer := by
  cases agrees with
  | ok related => exact ⟨_, rfl, related⟩

theorem not_stopped {s s' : Session} (agrees : Agrees R (.error .tooDeep s) (.ok () s')) :
    False := by
  cases agrees

private theorem bind {m m' next next' : Typing Unit} {s s' : Session}
    (first : Agrees R (m s) (m' s'))
    (second : ∀ {t t' : Session}, R t.typer t'.typer → Agrees R' (next t) (next' t')) :
    Agrees R' ((m >>= fun _ => next) s) ((m' >>= fun _ => next') s') := by
  show Agrees R' (EStateM.bind m (fun _ => next) s) (EStateM.bind m' (fun _ => next') s')
  unfold EStateM.bind
  generalize m s = result at first
  generalize m' s' = result' at first
  cases first with
  | ok related => exact second related
  | clash => exact .clash
  | failed => exact .failed

end Agrees

def Reflects (δ : Discipline) (f g : Term → Term → Typing Unit) : Prop :=
  ∀ (π : Renaming) (s s' : Session) (a b : Term), Stricter δ π s.typer s'.typer →
    a.Shared δ π s.typer s'.typer → b.Shared δ π s.typer s'.typer →
      Agrees (Together δ π s.typer s'.typer) (f a b s) (g (a.rename π) (b.rename π) s')

section Steps

variable {δ : Discipline} {f g : Term → Term → Typing Unit} {π : Renaming} {s s' : Session}

theorem agrees_unifyEach (reflects : Reflects δ f g) (stricter : Stricter δ π s.typer s'.typer)
    {as bs : List Term} (sharedAs : ∀ a ∈ as, a.Shared δ π s.typer s'.typer)
    (sharedBs : ∀ b ∈ bs, b.Shared δ π s.typer s'.typer) :
    Agrees (Together δ π s.typer s'.typer) (unifyEach f as bs s)
      (unifyEach g (as.map (Term.rename π)) (bs.map (Term.rename π)) s') := by
  have shared : ∀ pair ∈ as.zip bs,
      pair.1.Shared δ π s.typer s'.typer ∧ pair.2.Shared δ π s.typer s'.typer := by
    intro pair member
    obtain ⟨first, second⟩ := List.of_mem_zip (show (pair.1, pair.2) ∈ _ from member)
    exact ⟨sharedAs _ first, sharedBs _ second⟩
  clear sharedAs sharedBs
  rw [unifyEach, unifyEach, List.zip_map]
  generalize as.zip bs = pairs at shared ⊢
  induction pairs generalizing π s s' with
  | nil => exact .ok ⟨π, stricter.onward⟩
  | cons pair pairs ih =>
    obtain ⟨⟨sharedA, sharedB⟩, later⟩ := List.forall_mem_cons.mp shared
    refine (reflects π s s' pair.1 pair.2 stricter sharedA sharedB).bind fun {t t'} together => ?_
    obtain ⟨ρ, onward⟩ := together
    have rest := ih (onward.stricter stricter) fun other member =>
      ⟨onward.shared (later other member).1, onward.shared (later other member).2⟩
    have same : pairs.map (Prod.map (Term.rename π) (Term.rename π)) =
        pairs.map (Prod.map (Term.rename ρ) (Term.rename ρ)) :=
      List.map_congr_left fun other member => Prod.ext
        ((later other member).1.rename_eq onward.known).symm
        ((later other member).2.rename_eq onward.known).symm
    rw [same]
    refine rest.imp ?_
    rintro _ _ ⟨ρ', onward'⟩
    exact ⟨ρ', onward.trans onward'⟩

/-! Learning. -/

/-- The term is another that is no variable, or a variable that is bound to that. -/
inductive StandsFor (s : Classes) : Term → Term → Prop
  | itself {t : Term} : (∀ w, t ≠ .use w) → StandsFor s t t
  | through {w : TypeVar} {t : Term} : s.bound? w = some t → StandsFor s (.use w) t

/-- The typer has come to know that a variable stands for a term, and nothing else. -/
structure Settled (δ : Discipline) (v : TypeVar) (t : Term) (typer typer' : Typer) : Prop where
  sound : typer'.Sound (.plain δ)
  settles : Settles v t typer.classes typer'.classes
  rigid : typer'.rigid = typer.rigid
  counter : typer'.counter = typer.counter

private theorem learn_eq_permit (sound : s.typer.Sound (.plain δ)) {v : TypeVar}
    (within : (Term.use v).PlainWithin δ s.typer.counter)
    (unbound : s.typer.classes.bound? v = none) {t u : Term}
    (stands : StandsFor s.typer.classes t u) (withinU : u.PlainWithin δ s.typer.counter) :
    ∃ write : Typing Unit, learn v t s = (permit v u >>= fun _ => write) s ∧
      (s.typer.classes.occurs v u = false →
        ∃ s₁, write s = .ok () s₁ ∧ Settled δ v u s.typer s₁.typer) := by
  cases stands with
  | itself notUse =>
    refine ⟨bindTo v t, ?_, fun free => ⟨_, rfl, ?_, settles_set sound.tidy v t, rfl, rfl⟩⟩
    · cases t with
      | use w => exact absurd rfl (notUse w)
      | con head args => rfl
      | scheme quantifier vars body => rfl
      | func typeParams params result => rfl
    · exact Problem.Sane.set sound within withinU notUse (not_leadsTo_of_occurs sound free)
  | @through w _ bound =>
    have apart : ¬s.typer.classes.same v w = true := by
      intro same
      rw [← Classes.bound?_of_same same, unbound] at bound
      cases bound
    refine ⟨join v w, ?_, fun free => ⟨_, rfl, ?_, settles_join sound.tidy unbound bound, rfl, rfl⟩⟩
    · show equate v w s = _
      rw [equate_apply, if_neg apart, bound]
    · have listed := sound.mentioned (Classes.mem_mentioned_of_bound bound)
      refine Problem.Sane.join sound within listed unbound fun leads => ?_
      cases leads with
      | same here => exact apart (Classes.same_symm here)
      | through here free' rest =>
        rw [bound] at here
        cases here
        exact not_leadsTo_of_occurs sound free _ free' rest

private theorem permit_twins (stricter : Stricter δ π s.typer s'.typer) {v : TypeVar}
    (unbound : s.typer.classes.bound? v = none) {u : Term} (plain : u.Plain) :
    (∃ c, permit v u s = .error (.clash c) s) ∨
      (permit v u s = .ok () s ∧ s.typer.isRigid v = false ∧
        s.typer.classes.occurs v u = false ∧ permit (π v) (u.rename π) s' = .ok () s' ∧
        s'.typer.classes.occurs (π v) (u.rename π) = false) := by
  have apply_permit (v : TypeVar) (u : Term) (s : Session) : permit v u s =
      (if s.typer.isRigid v = true then clash .rigid (.use v) u
        else if s.typer.classes.occurs v u = true then clash .recursive (.use v) u
        else pure () : Typing Unit) s := rfl
  rw [apply_permit, apply_permit, stricter.occurs unbound plain]
  by_cases rigid : s.typer.isRigid v = true
  · rw [if_pos rigid]
    exact .inl ⟨_, rfl⟩
  · rw [if_neg rigid, if_neg (mt (stricter.isRigid unbound) rigid)]
    by_cases occurs : s.typer.classes.occurs v u = true
    · rw [if_pos occurs]
      exact .inl ⟨_, rfl⟩
    · rw [if_neg occurs, if_neg occurs]
      exact .inr ⟨rfl, Bool.eq_false_iff.mpr rigid, Bool.eq_false_iff.mpr occurs, rfl,
        Bool.eq_false_iff.mpr occurs⟩

theorem agrees_learn (stricter : Stricter δ π s.typer s'.typer) {v : TypeVar}
    (sharedV : (Term.use v).Shared δ π s.typer s'.typer)
    (unbound : s.typer.classes.bound? v = none) {t t' u : Term}
    (sharedU : u.Shared δ π s.typer s'.typer) (stands : StandsFor s.typer.classes t u)
    (stands' : StandsFor s'.typer.classes t' (u.rename π)) :
    Agrees (Together δ π s.typer s'.typer) (learn v t s) (learn (π v) t' s') := by
  have unbound' := (stricter.unbound_iff v).mpr unbound
  obtain ⟨write, runs, writes⟩ :=
    learn_eq_permit stricter.left sharedV.left unbound stands sharedU.left
  obtain ⟨write', runs', writes'⟩ :=
    learn_eq_permit stricter.right sharedV.right unbound' stands' sharedU.right
  rw [runs, runs']
  show Agrees _ (EStateM.bind (permit v u) (fun _ => write) s)
    (EStateM.bind (permit (π v) (u.rename π)) (fun _ => write') s')
  unfold EStateM.bind
  rcases permit_twins stricter unbound sharedU.left.plain with
    ⟨c, refused⟩ | ⟨permitted, flexible, free, permitted', free'⟩
  · rw [refused]
    exact .clash
  · rw [permitted, permitted']
    obtain ⟨s₁, wrote, settled⟩ := writes free
    obtain ⟨s₁', wrote', settled'⟩ := writes' free'
    dsimp only
    rw [wrote, wrote']
    refine .ok ⟨π, fun _ _ _ => rfl, ?_, fun r member => ?_, settled.counter.ge,
      settled'.counter.ge, settled.rigid, settled'.rigid⟩
    · exact stricter.settle settled.sound settled'.sound unbound settled.settles settled'.settles
    · have apart : ¬s.typer.classes.same r v = true := by
        intro same
        have rigid : s.typer.isRigid v = true :=
          List.any_eq_true.mpr ⟨r, member, Classes.same_symm same⟩
        rw [flexible] at rigid
        cases rigid
      rw [settled.settles.bound, if_neg apart]
      exact stricter.unbound r member

private theorem questions_alike (stricter : Stricter δ π s.typer s'.typer) {v w v' w' : TypeVar}
    (unboundV : s.typer.classes.bound? v = none) (unboundW : s.typer.classes.bound? w = none)
    (names : (v' = π v ∧ w' = π w) ∨ (v' = π w ∧ w' = π v)) :
    s'.typer.classes.same v' w' = s.typer.classes.same v w ∧
      s'.typer.classes.bound? v' = none ∧ s'.typer.classes.bound? w' = none ∧
      ((s'.typer.isRigid v' && s'.typer.isRigid w') = true →
        (s.typer.isRigid v && s.typer.isRigid w) = true) := by
  have unboundV' := (stricter.unbound_iff v).mpr unboundV
  have unboundW' := (stricter.unbound_iff w).mpr unboundW
  have bothRigid : s'.typer.isRigid (π v) = true → s'.typer.isRigid (π w) = true →
      (s.typer.isRigid v && s.typer.isRigid w) = true := fun here there =>
    Bool.and_eq_true_iff.mpr ⟨stricter.isRigid unboundV here, stricter.isRigid unboundW there⟩
  rcases names with ⟨rfl, rfl⟩ | ⟨rfl, rfl⟩
  · refine ⟨stricter.same v w unboundV unboundW, unboundV', unboundW', fun both => ?_⟩
    obtain ⟨here, there⟩ := Bool.and_eq_true_iff.mp both
    exact bothRigid here there
  · refine ⟨?_, unboundW', unboundV', fun both => ?_⟩
    · rw [← stricter.same v w unboundV unboundW]
      exact Bool.eq_iff_iff.mpr ⟨Classes.same_symm, Classes.same_symm⟩
    · obtain ⟨there, here⟩ := Bool.and_eq_true_iff.mp both
      exact bothRigid here there

theorem agrees_equate (stricter : Stricter δ π s.typer s'.typer) {v w v' w' : TypeVar}
    (sharedV : (Term.use v).Shared δ π s.typer s'.typer)
    (sharedW : (Term.use w).Shared δ π s.typer s'.typer)
    (unboundV : s.typer.classes.bound? v = none) (unboundW : s.typer.classes.bound? w = none)
    (names : (v' = π v ∧ w' = π w) ∨ (v' = π w ∧ w' = π v)) :
    Agrees (Together δ π s.typer s'.typer) (equate v w s) (equate v' w' s') := by
  obtain ⟨same', unbound', unbound'', rigid'⟩ := questions_alike stricter unboundV unboundW names
  obtain ⟨withinV', withinW'⟩ : (Term.use v').PlainWithin δ s'.typer.counter ∧
      (Term.use w').PlainWithin δ s'.typer.counter := by
    rcases names with ⟨rfl, rfl⟩ | ⟨rfl, rfl⟩
    · exact ⟨sharedV.right, sharedW.right⟩
    · exact ⟨sharedW.right, sharedV.right⟩
  rw [equate_apply, equate_apply, same', unboundW, unbound'']
  by_cases same : s.typer.classes.same v w = true
  · rw [if_pos same, if_pos same]
    exact .ok ⟨π, stricter.onward⟩
  · rw [if_neg same, if_neg same]
    dsimp only
    by_cases rigid : (s.typer.isRigid v && s.typer.isRigid w) = true
    · rw [if_pos rigid]
      exact .clash
    · rw [if_neg rigid, if_neg (mt rigid' rigid)]
      have sound := Problem.Sane.join stricter.left sharedV.left sharedW.left unboundV
        fun leads => same (Classes.same_symm (leads.same_of_unbound unboundW))
      have sound' := Problem.Sane.join stricter.right withinV' withinW' unbound'
        fun leads => (same' ▸ same) (Classes.same_symm (leads.same_of_unbound unbound''))
      have merges := merges_join stricter.left.tidy unboundV unboundW
      have merges' : Classes.Merges (π v) (π w) s'.typer.classes (s'.typer.classes.join v' w') := by
        have joined := merges_join stricter.right.tidy unbound' unbound''
        rcases names with ⟨rfl, rfl⟩ | ⟨rfl, rfl⟩
        · exact joined
        · exact joined.swap
      refine .ok ⟨π, fun _ _ _ => rfl, ?_, fun r member => ?_, le_rfl, le_rfl, rfl, rfl⟩
      · exact stricter.merge sound sound' unboundV unboundW merges merges'
      · exact (merges.bound r).trans (stricter.unbound r member)

theorem agrees_unifyVar (reflects : Reflects δ f f) (stricter : Stricter δ π s.typer s'.typer)
    {v : TypeVar} (sharedV : (Term.use v).Shared δ π s.typer s'.typer) {t : Term}
    (shared : t.Shared δ π s.typer s'.typer) (notUse : ∀ w, t ≠ .use w)
    (notUse' : ∀ w, t.rename π ≠ .use w) :
    Agrees (Together δ π s.typer s'.typer) (unifyVar f v t s) (unifyVar f (π v) (t.rename π) s') := by
  rw [unifyVar_apply, unifyVar_apply]
  cases bound : s.typer.classes.bound? v with
  | some u =>
    rw [stricter.bound_some bound]
    exact reflects π s s' u t stricter (stricter.shared_of_bound bound) shared
  | none =>
    rw [(stricter.unbound_iff v).mpr bound]
    exact agrees_learn stricter sharedV bound shared (.itself notUse) (.itself notUse')

/-! Opening. -/

/-- What is under a binder that both typers may open. -/
structure Beneath (δ : Discipline) (π : Renaming) (σ τ : Typer) (vars : List TypeVar) (t : Term) :
    Prop where
  given : ∀ v ∈ vars, ¬v.MadeUp
  plain : t.Plain
  follows : t.Follows δ
  older : ∀ v ∈ t.freeVars, v ∉ vars → Older σ.counter v ∧ Older τ.counter (π v)

theorem beneath_scheme {σ τ : Typer} {quantifier : Quantifier} {vars : List TypeVar} {body : Term}
    (shared : (Term.scheme quantifier vars body).Shared δ π σ τ) : Beneath δ π σ τ vars body :=
  ⟨shared.left.plain.1, shared.left.plain.2, shared.left.follows.2, fun _ free unbound =>
    shared.older (Term.mem_freeVars_scheme.mpr ⟨free, unbound⟩)⟩

private theorem beneath_func {σ τ : Typer} {vars : List TypeVar} {params : List Term}
    {result : Term} (shared : (Term.func vars params result).Shared δ π σ τ) :
    ∀ p ∈ params ++ [result], Beneath δ π σ τ vars p := by
  intro p member
  obtain ⟨given, parts⟩ := Term.plain_func.mp shared.left.plain
  exact ⟨given, parts p member, Term.follows_func.mp shared.left.follows p member, fun _ free unbound =>
    shared.older (Term.mem_freeVars_func_iff.mpr ⟨⟨p, member, free⟩, unbound⟩)⟩

theorem Beneath.opened {σ τ : Typer} {vars : List TypeVar} {t : Term}
    (beneath : Beneath δ π σ τ vars t) (family : Family) (typer typer' σ₁ τ₁ : Typer) {ρ : Renaming}
    (known : ∀ v, Older σ.counter v → Older τ.counter (π v) → ρ v = π v)
    (pairs : ∀ i < vars.length, ρ (numbered family (typer.counter + 1 + i)) =
      numbered family (typer'.counter + 1 + i))
    (le : σ.counter ≤ typer.counter) (le' : τ.counter ≤ typer'.counter)
    (within : typer.counter + vars.length ≤ σ₁.counter)
    (within' : typer'.counter + vars.length ≤ τ₁.counter) :
    (t.subst (typer.freshFor family vars).1).Shared δ ρ σ₁ τ₁ ∧
      (t.subst (typer.freshFor family vars).1).rename ρ =
        (t.rename π).subst (typer'.freshFor family vars).1 := by
  have renamed : (t.subst (typer.freshFor family vars).1).rename ρ =
      (t.rename π).subst (typer'.freshFor family vars).1 := by
    refine Typer.rename_opened typer typer' family beneath.given beneath.plain ?_ pairs
    intro v free unbound
    exact known v (beneath.older v free unbound).1 (beneath.older v free unbound).2
  refine ⟨⟨?_, ?_⟩, renamed⟩
  · refine Term.PlainWithin.mono (.opened typer family beneath.given beneath.plain
      beneath.follows ?_) ?_
    · exact fun v free unbound => (beneath.older v free unbound).1.mono le
    · rw [Typer.freshFor_snd]
      exact within
  · rw [renamed]
    refine Term.PlainWithin.mono (.opened typer' family beneath.given beneath.plain.rename
      (beneath.follows.rename beneath.plain π) ?_) ?_
    · intro v free unbound
      rw [beneath.plain.freeVars_rename] at free
      obtain ⟨u, own, rfl⟩ := List.mem_map.mp free
      have outside : u ∉ vars := mt (π.apply_mem_iff beneath.given u).mpr unbound
      exact (beneath.older u own outside).2.mono le'
    · rw [Typer.freshFor_snd]
      exact within'

theorem agrees_unifyOpened (reflects : Reflects δ f f) (stricter : Stricter δ π s.typer s'.typer)
    {other : Term} (shared : other.Shared δ π s.typer s'.typer) {quantifier : Quantifier}
    {vars : List TypeVar} {body : Term} (beneath : Beneath δ π s.typer s'.typer vars body) :
    Agrees (Together δ π s.typer s'.typer) (unifyOpened f other quantifier vars body s)
      (unifyOpened f (other.rename π) quantifier vars (body.rename π) s') := by
  let made := s.typer.freshFor (familyOf quantifier) vars
  let made' := s'.typer.freshFor (familyOf quantifier) vars
  show Agrees _ (f other (body.subst made.1) { s with typer := made.2 })
    (f (other.rename π) ((body.rename π).subst made'.1) { s' with typer := made'.2 })
  obtain ⟨ρ, known, pairs, -⟩ := Typer.exists_pairing π (familyOf quantifier) (familyOf quantifier)
    (⟨le_rfl, Nat.le_add_right _ _, .inl le_rfl⟩ :
      Blocks s.typer.counter s.typer.counter vars.length (s.typer.counter + vars.length) 0)
    (⟨le_rfl, Nat.le_add_right _ _, .inl le_rfl⟩ :
      Blocks s'.typer.counter s'.typer.counter vars.length (s'.typer.counter + vars.length) 0)
  have onward : Onward δ π ρ s.typer s'.typer made.2 made'.2 := by
    rw [Typer.freshFor_snd, Typer.freshFor_snd]
    exact stricter.opened (Nat.le_add_right _ _) (Nat.le_add_right _ _) known
  obtain ⟨sharedBody, renamed⟩ := beneath.opened (familyOf quantifier) s.typer s'.typer made.2
    made'.2 known pairs le_rfl le_rfl (by rw [Typer.freshFor_snd]) (by rw [Typer.freshFor_snd])
  rw [← renamed, ← shared.rename_eq onward.known]
  refine (reflects ρ _ _ _ _ (onward.stricter stricter) (onward.shared shared) sharedBody).imp ?_
  exact fun ⟨ρ', onward'⟩ => ⟨ρ', onward.trans onward'⟩

theorem unifyEach_flip (f : Term → Term → Typing Unit) (as bs : List Term) :
    unifyEach (flip f) as bs = unifyEach f bs as := by
  rw [unifyEach, unifyEach]
  induction as generalizing bs with
  | nil =>
    rw [List.zip_nil_right]
    rfl
  | cons a as ih =>
    cases bs with
    | nil => rfl
    | cons b bs =>
      rw [List.zip_cons_cons, List.zip_cons_cons]
      exact congrArg (f b a >>= fun _ => ·) (ih bs)

private theorem exists_opened {σ τ : Typer} (stricter : Stricter δ π σ τ) (family family' : Family)
    {vs ws : List TypeVar} (typerV typerW typerV' typerW' : Typer)
    (blocks : Blocks σ.counter typerV.counter vs.length typerW.counter ws.length)
    (blocks' : Blocks τ.counter typerV'.counter vs.length typerW'.counter ws.length)
    {c d : Nat} (withinV : typerV.counter + vs.length ≤ c) (withinW : typerW.counter + ws.length ≤ c)
    (withinV' : typerV'.counter + vs.length ≤ d) (withinW' : typerW'.counter + ws.length ≤ d) :
    ∃ ρ : Renaming, Onward δ π ρ σ τ { σ with counter := c } { τ with counter := d } ∧
      (∀ p, Beneath δ π σ τ vs p →
        (p.subst (typerV.freshFor family vs).1).Shared δ ρ { σ with counter := c }
          { τ with counter := d } ∧
        (p.subst (typerV.freshFor family vs).1).rename ρ =
          (p.rename π).subst (typerV'.freshFor family vs).1) ∧
      ∀ q, Beneath δ π σ τ ws q →
        (q.subst (typerW.freshFor family' ws).1).Shared δ ρ { σ with counter := c }
          { τ with counter := d } ∧
        (q.subst (typerW.freshFor family' ws).1).rename ρ =
          (q.rename π).subst (typerW'.freshFor family' ws).1 := by
  obtain ⟨ρ, known, pairsV, pairsW⟩ := Typer.exists_pairing π family family' blocks blocks'
  have le : σ.counter ≤ c := by have := blocks.first; omega
  have le' : τ.counter ≤ d := by have := blocks'.first; omega
  refine ⟨ρ, stricter.opened le le' known, fun p beneath => ?_, fun q beneath => ?_⟩
  · exact beneath.opened family typerV typerV' _ _ known pairsV blocks.first blocks'.first
      withinV withinV'
  · exact beneath.opened family' typerW typerW' _ _ known pairsW blocks.second blocks'.second
      withinW withinW'

section Opened

variable {vs ws : List TypeVar} (typerV typerW typerV' typerW' : Typer)
  (blocks : Blocks s.typer.counter typerV.counter vs.length typerW.counter ws.length)
  (blocks' : Blocks s'.typer.counter typerV'.counter vs.length typerW'.counter ws.length)
  {c d : Nat} (withinV : typerV.counter + vs.length ≤ c) (withinW : typerW.counter + ws.length ≤ c)
  (withinV' : typerV'.counter + vs.length ≤ d) (withinW' : typerW'.counter + ws.length ≤ d)

include blocks blocks' withinV withinW withinV' withinW'

theorem agrees_openedPair (reflects : Reflects δ f g) (stricter : Stricter δ π s.typer s'.typer)
    (family family' : Family) {a b : Term} (beneathV : Beneath δ π s.typer s'.typer vs a)
    (beneathW : Beneath δ π s.typer s'.typer ws b) :
    Agrees (Together δ π s.typer s'.typer)
      (f (a.subst (typerV.freshFor family vs).1) (b.subst (typerW.freshFor family' ws).1)
        { s with typer := { s.typer with counter := c } })
      (g ((a.rename π).subst (typerV'.freshFor family vs).1)
        ((b.rename π).subst (typerW'.freshFor family' ws).1)
        { s' with typer := { s'.typer with counter := d } }) := by
  obtain ⟨ρ, onward, opensV, opensW⟩ := exists_opened stricter family family' typerV typerW typerV'
    typerW' blocks blocks' withinV withinW withinV' withinW'
  rw [← (opensV a beneathV).2, ← (opensW b beneathW).2]
  refine (reflects ρ { s with typer := { s.typer with counter := c } }
    { s' with typer := { s'.typer with counter := d } } _ _ (onward.stricter stricter)
    (opensV a beneathV).1 (opensW b beneathW).1).imp ?_
  rintro _ _ ⟨ρ', onward'⟩
  exact ⟨ρ', onward.trans onward'⟩

private theorem agrees_openedEach (reflects : Reflects δ f g)
    (stricter : Stricter δ π s.typer s'.typer) {ps qs : List Term}
    (beneathV : ∀ p ∈ ps, Beneath δ π s.typer s'.typer vs p)
    (beneathW : ∀ q ∈ qs, Beneath δ π s.typer s'.typer ws q) :
    Agrees (Together δ π s.typer s'.typer)
      (unifyEach f (ps.map (Term.subst (typerV.freshFor .unification vs).1))
        (qs.map (Term.subst (typerW.freshFor .unification ws).1))
        { s with typer := { s.typer with counter := c } })
      (unifyEach g ((ps.map (Term.rename π)).map (Term.subst (typerV'.freshFor .unification vs).1))
        ((qs.map (Term.rename π)).map (Term.subst (typerW'.freshFor .unification ws).1))
        { s' with typer := { s'.typer with counter := d } }) := by
  obtain ⟨ρ, onward, opensV, opensW⟩ := exists_opened stricter .unification .unification typerV
    typerW typerV' typerW' blocks blocks' withinV withinW withinV' withinW'
  have renamed {ts : List Term} {γ γ' : Term.Mapping}
      (each : ∀ t ∈ ts, (t.subst γ).rename ρ = (t.rename π).subst γ') :
      (ts.map (Term.rename π)).map (Term.subst γ') = (ts.map (Term.subst γ)).map (Term.rename ρ) := by
    rw [List.map_map, List.map_map]
    exact List.map_congr_left fun t member => (each t member).symm
  rw [renamed fun p member => (opensV p (beneathV p member)).2,
    renamed fun q member => (opensW q (beneathW q member)).2]
  let opened : Session := { s with typer := { s.typer with counter := c } }
  let opened' : Session := { s' with typer := { s'.typer with counter := d } }
  have stricter' : Stricter δ ρ opened.typer opened'.typer := onward.stricter stricter
  refine (agrees_unifyEach reflects stricter'
    (List.forall_mem_map.mpr fun p member => (opensV p (beneathV p member)).1)
    (List.forall_mem_map.mpr fun q member => (opensW q (beneathW q member)).1)).imp ?_
  rintro _ _ ⟨ρ', onward'⟩
  exact ⟨ρ', onward.trans onward'⟩

end Opened

theorem unifyFunctions_apply (f : Term → Term → Typing Unit) (vs : List TypeVar) (ps : List Term)
    (r : Term) (ws : List TypeVar) (qs : List Term) (t : Term) (s : Session) :
    unifyFunctions f vs ps r ws qs t s =
      unifyEach f ((ps ++ [r]).map (Term.subst (s.typer.freshFor .unification vs).1))
        ((qs ++ [t]).map (Term.subst ((s.typer.freshFor .unification vs).2.freshFor
          .unification ws).1))
        { s with typer := { s.typer with counter := s.typer.counter + vs.length + ws.length } } := by
  rw [← s.typer.freshFor_twice_snd .unification .unification vs ws]
  rfl

section Functions

variable {vs ws : List TypeVar} {ps qs : List Term} {r t : Term}

private theorem map_rename_parts (π : Renaming) (ps : List Term) (r : Term) :
    ps.map (Term.rename π) ++ [r.rename π] = (ps ++ [r]).map (Term.rename π) := by
  rw [List.map_append, List.map_singleton]

theorem agrees_unifyFunctions (reflects : Reflects δ f f) (stricter : Stricter δ π s.typer s'.typer)
    (left : (Term.func vs ps r).Shared δ π s.typer s'.typer)
    (right : (Term.func ws qs t).Shared δ π s.typer s'.typer) :
    Agrees (Together δ π s.typer s'.typer) (unifyFunctions f vs ps r ws qs t s)
      (unifyFunctions f vs (ps.map (Term.rename π)) (r.rename π) ws (qs.map (Term.rename π))
        (t.rename π) s') := by
  rw [unifyFunctions_apply, unifyFunctions_apply, map_rename_parts, map_rename_parts]
  refine agrees_openedEach s.typer (s.typer.freshFor .unification vs).2 s'.typer
    (s'.typer.freshFor .unification vs).2 ⟨le_rfl, ?_, .inl ?_⟩ ⟨le_rfl, ?_, .inl ?_⟩ (by omega) ?_
    (by omega) ?_ reflects stricter (beneath_func left) (beneath_func right) <;>
    simp only [Typer.freshFor_snd] <;> omega

theorem agrees_unifyFunctions_flip (reflects : Reflects δ f (flip f))
    (stricter : Stricter δ π s.typer s'.typer)
    (left : (Term.func vs ps r).Shared δ π s.typer s'.typer)
    (right : (Term.func ws qs t).Shared δ π s.typer s'.typer) :
    Agrees (Together δ π s.typer s'.typer) (unifyFunctions f vs ps r ws qs t s)
      (unifyFunctions f ws (qs.map (Term.rename π)) (t.rename π) vs (ps.map (Term.rename π))
        (r.rename π) s') := by
  rw [unifyFunctions_apply f ws, ← unifyEach_flip, unifyFunctions_apply, map_rename_parts,
    map_rename_parts]
  refine agrees_openedEach s.typer (s.typer.freshFor .unification vs).2
    (s'.typer.freshFor .unification ws).2 s'.typer ⟨le_rfl, ?_, .inl ?_⟩ ⟨?_, le_rfl, .inr ?_⟩
    (by omega) ?_ ?_ (by omega) reflects stricter (beneath_func left) (beneath_func right) <;>
    simp only [Typer.freshFor_snd] <;> omega

end Functions

end Steps

end Typing

end TypedCalls
