import TypedCalls.Proofs.Typer.Mirror

/-!
Two universal schemes, compared by twins.

A comparison with the variables of one side rigid is stricter than one with nothing rigid. So both
ways of comparing two schemes, where they succeed, come to twins of what the loose comparison comes
to, and it does not matter which of them was tried first (`agrees_unifySchemes`).
-/

set_option autoImplicit false

namespace TypedCalls

open Typer (Twins Stricter Blocks Onward Together)
open TypeVar (Older numbered)

namespace Typing

section Steps

variable {f g : Term → Term → Typing Unit} {π : Renaming} {s s' : Session}

def compareOpen (unify : Term → Term → Typing Unit) (vs : List TypeVar) (a : Term)
    (ws : List TypeVar) (b : Term) : Typing Unit := do
  let left ← openTerm .existential vs a
  let right ← openTerm .existential ws b
  unify left right

def closeRigid (rigid skolems outside : List TypeVar) (whole : Clash) :
    EStateM.Result UnifyFailure Session Unit → EStateM.Result UnifyFailure Session Unit
  | .ok _ s =>
    if s.typer.escapes skolems outside then .error (.clash whole) s
    else .ok () { s with typer := { s.typer with rigid } }
  | .error failure s => .error failure s

abbrev skolemsFor (typer : Typer) (vars : List TypeVar) : List TypeVar :=
  (typer.freshFor .existential vars).1.flatMap fun entry => entry.2.freeVars

abbrev stricten (typer : Typer) (vars : List TypeVar) : Typer :=
  { (typer.freshFor .existential vars).2 with rigid := typer.rigid ++ skolemsFor typer vars }

abbrev strictFor (typer : Typer) (vs ws : List TypeVar) : Typer :=
  { typer with
    counter := typer.counter + vs.length + ws.length
    rigid := typer.rigid ++ skolemsFor typer vs }

theorem compareRigid_apply (f : Term → Term → Typing Unit) (outside : List TypeVar) (whole : Clash)
    (vs : List TypeVar) (a : Term) (ws : List TypeVar) (b : Term) (s : Session) :
    compareRigid f outside whole vs a ws b s =
      closeRigid s.typer.rigid (skolemsFor s.typer vs) outside whole
        (f (a.subst (s.typer.freshFor .existential vs).1)
          (b.subst ((stricten s.typer vs).freshFor .existential ws).1)
          { s with typer := strictFor s.typer vs ws }) := by
  have final : ((stricten s.typer vs).freshFor .existential ws).2 = strictFor s.typer vs ws := by
    rw [Typer.freshFor_snd, stricten, Typer.freshFor_snd]
  rw [← final]
  show EStateM.bind (f (a.subst (s.typer.freshFor .existential vs).1)
    (b.subst ((stricten s.typer vs).freshFor .existential ws).1)) (fun _ => do
      if (← current).escapes (skolemsFor s.typer vs) outside then throw (.clash whole)
      change fun typer => { typer with rigid := s.typer.rigid }) _ = _
  unfold EStateM.bind
  cases f _ _ { s with typer := ((stricten s.typer vs).freshFor .existential ws).2 } with
  | error failure s₁ => rfl
  | ok _ s₁ =>
    show (if s₁.typer.escapes (skolemsFor s.typer vs) outside = true then
      throw (.clash whole) >>= fun _ => change fun typer => { typer with rigid := s.typer.rigid }
      else change fun typer => { typer with rigid := s.typer.rigid } : Typing Unit) s₁ = _
    rw [closeRigid]
    split
    · rfl
    · rfl

private theorem compareOpen_apply (f : Term → Term → Typing Unit) (vs : List TypeVar) (a : Term)
    (ws : List TypeVar) (b : Term) (s : Session) :
    compareOpen f vs a ws b s = f (a.subst (s.typer.freshFor .existential vs).1)
      (b.subst ((s.typer.freshFor .existential vs).2.freshFor .existential ws).1)
      { s with typer := { s.typer with
        counter := s.typer.counter + vs.length + ws.length } } := by
  rw [← s.typer.freshFor_twice_snd .existential .existential vs ws]
  rfl

theorem counter_stricten (typer : Typer) (vars : List TypeVar) :
    (stricten typer vars).counter = typer.counter + vars.length := by
  rw [stricten, Typer.freshFor_snd]

theorem not_older_of_mem_skolemsFor {typer : Typer} {vars : List TypeVar} {x : TypeVar}
    (member : x ∈ skolemsFor typer vars) : ¬Older typer.counter x := by
  obtain ⟨i, -, rfl⟩ := (typer.mem_freshFor_freeVars .existential).mp member
  exact TypeVar.not_older_numbered .existential (by omega)

private theorem exists_skolem {typer typer' strict strict' : Typer} {ρ : Renaming}
    {vs : List TypeVar}
    (pairs : ∀ i < vs.length, ρ (numbered .existential (typer.counter + 1 + i)) =
      numbered .existential (typer'.counter + 1 + i))
    (le : typer.counter + vs.length ≤ strict.counter)
    (le' : typer'.counter + vs.length ≤ strict'.counter) {r : TypeVar}
    (member : r ∈ skolemsFor typer' vs) :
    ∃ u ∈ skolemsFor typer vs, ρ u = r ∧ Older strict.counter u ∧ Older strict'.counter r := by
  obtain ⟨i, below, rfl⟩ := (typer'.mem_freshFor_freeVars .existential).mp member
  refine ⟨numbered .existential (typer.counter + 1 + i), ?_, pairs i below, ?_, ?_⟩
  · exact (typer.mem_freshFor_freeVars .existential).mpr ⟨i, below, rfl⟩
  · exact TypeVar.older_numbered _ (by omega)
  · exact TypeVar.older_numbered _ (by omega)

/-! Of two trials. -/

section Trials

variable {P Q P' Q' : Typing Unit}

private theorem firstOf_eq_ok {t : Session} (success : firstOf P Q s = .ok () t) :
    ∃ z u : Session, z.typer = s.typer ∧ u.typer = t.typer ∧ (P z = .ok () u ∨ Q z = .ok () u) := by
  unfold firstOf at success
  split at success
  · next u tried =>
    cases success
    exact ⟨s.trial, u, rfl, rfl, .inl tried⟩
  · cases success
  · next c t₁ _ =>
    split at success
    · next u tried =>
      cases success
      exact ⟨(s.discard t₁.report).trial, u, rfl, rfl, .inr tried⟩
    · cases success
    · cases success

private theorem firstOf_eq_tooDeep {t : Session} (stopped : firstOf P Q s = .error .tooDeep t) :
    ∃ z u : Session, z.typer = s.typer ∧ (P z = .error .tooDeep u ∨ Q z = .error .tooDeep u) := by
  unfold firstOf at stopped
  split at stopped
  · cases stopped
  · next u tried => exact ⟨s.trial, u, rfl, .inl tried⟩
  · next c t₁ _ =>
    split at stopped
    · cases stopped
    · next u tried => exact ⟨(s.discard t₁.report).trial, u, rfl, .inr tried⟩
    · cases stopped

private theorem exists_firstOf_eq_ok
    (goes : ∀ z u : Session, z.typer = s.typer →
      P z ≠ .error .tooDeep u ∧ Q z ≠ .error .tooDeep u)
    (one : (∀ z : Session, z.typer = s.typer → ∃ u, P z = .ok () u) ∨
      ∀ z : Session, z.typer = s.typer → ∃ u, Q z = .ok () u) :
    ∃ t, firstOf P Q s = .ok () t := by
  unfold firstOf
  split
  · exact ⟨_, rfl⟩
  · next u tried => exact absurd tried (goes s.trial u rfl).1
  · next c t₁ clashed =>
    have second := one.resolve_left fun first => by
      obtain ⟨u, tried⟩ := first s.trial rfl
      rw [clashed] at tried
      cases tried
    obtain ⟨u, tried⟩ := second (s.discard t₁.report).trial rfl
    rw [tried]
    exact ⟨_, rfl⟩

def BothStricter (R : Typer → Typer → Prop) (P Q : Typing Unit) (typer : Typer)
    (middle : EStateM.Result UnifyFailure Session Unit) : Prop :=
  ∀ z : Session, z.typer = typer → Agrees R (P z) middle ∧ Agrees R (Q z) middle

namespace BothStricter

variable {R : Typer → Typer → Prop} {middle : EStateM.Result UnifyFailure Session Unit}

private theorem success (loose : BothStricter R P Q s.typer middle) {t : Session}
    (first : firstOf P Q s = .ok () t) : ∃ m, middle = .ok () m ∧ R t.typer m.typer := by
  obtain ⟨z, u, typer, final, success⟩ := firstOf_eq_ok first
  rw [← final]
  rcases success with success | success
  · exact (success ▸ (loose z typer).1).success
  · exact (success ▸ (loose z typer).2).success

private theorem not_stopped {m : Session} (loose : BothStricter R P Q s.typer (.ok () m))
    {t : Session} : firstOf P Q s ≠ .error .tooDeep t := by
  intro first
  obtain ⟨z, u, typer, stopped⟩ := firstOf_eq_tooDeep first
  rcases stopped with stopped | stopped
  · exact (stopped ▸ (loose z typer).1).not_stopped
  · exact (stopped ▸ (loose z typer).2).not_stopped

end BothStricter

end Trials

/-! Comparisons by twins. -/

variable {δ : Discipline}

private theorem stricter_strict {σ τ σ' τ' : Typer} {ρ : Renaming} {skolems : List TypeVar}
    (stricter : Stricter δ π σ τ)
    (known : ∀ v, Older σ.counter v → Older τ.counter (π v) → ρ v = π v)
    (classes : σ'.classes = σ.classes) (classes' : τ'.classes = τ.classes)
    (le : σ.counter ≤ σ'.counter) (le' : τ.counter ≤ τ'.counter)
    (rigid : σ'.rigid = σ.rigid ++ skolems) (new : ∀ x ∈ skolems, ¬Older σ.counter x)
    (origin : ∀ r ∈ τ'.rigid, r ∈ τ.rigid ∨
      ∃ u ∈ skolems, ρ u = r ∧ Older σ'.counter u ∧ Older τ'.counter r) :
    Stricter δ ρ σ' τ' := by
  have twins : Twins δ ρ σ' τ' := by
    have later := (stricter.congr known).later le le' σ'.rigid τ'.rigid
    rwa [← classes, ← classes'] at later
  refine ⟨twins, fun r member => ?_, fun r member => ?_⟩
  · rw [classes]
    rw [rigid] at member
    rcases List.mem_append.mp member with old | skolem
    · exact stricter.unbound r old
    · refine Classes.bound?_eq_none_of_not_mem fun listed => new r skolem ?_
      exact (stricter.older_of_mem listed).1
  · rw [rigid]
    rcases origin r member with old | ⟨u, skolem, rfl, older, older'⟩
    · obtain ⟨u, inside, rfl, older, older'⟩ := stricter.rigid r old
      exact ⟨u, List.mem_append_left _ inside, known u older older', older.mono le,
        older'.mono le'⟩
    · exact ⟨u, List.mem_append_right _ skolem, rfl, older, older'⟩

private theorem together_close {σ τ strict loose σ' τ' : Typer} {ρ : Renaming}
    (together : Together δ ρ strict loose σ' τ')
    (known : ∀ v, Older σ.counter v → Older τ.counter (π v) → ρ v = π v)
    (le : σ.counter ≤ strict.counter) (le' : τ.counter ≤ loose.counter)
    (rigid : ∀ r ∈ σ.rigid, r ∈ strict.rigid) :
    Together δ π σ τ { σ' with rigid := σ.rigid } { τ' with rigid := τ.rigid } := by
  obtain ⟨ρ', onward⟩ := together
  refine ⟨ρ', fun v older older' => ?_, onward.twins.later le_rfl le_rfl _ _, fun r member =>
    onward.unbound r (rigid r member), le.trans onward.counter, le'.trans onward.counter', rfl, rfl⟩
  have here := known v older older'
  rw [← here]
  refine onward.known v (older.mono le) ?_
  rw [here]
  exact older'.mono le'

section Schemes

variable {vs ws : List TypeVar} {a b : Term} {outside outside' : List TypeVar}

private theorem agrees_compareRigid_loose (reflects : Reflects δ f g) (outside : List TypeVar)
    (whole : Clash) (stricter : Stricter δ π s.typer s'.typer)
    (beneathV : Beneath δ π s.typer s'.typer vs a) (beneathW : Beneath δ π s.typer s'.typer ws b)
    (typerV typerW : Typer)
    (blocks : Blocks s'.typer.counter typerV.counter vs.length typerW.counter ws.length) {d : Nat}
    (withinV : typerV.counter + vs.length ≤ d) (withinW : typerW.counter + ws.length ≤ d) :
    Agrees (Together δ π s.typer s'.typer) (compareRigid f outside whole vs a ws b s)
      (g ((a.rename π).subst (typerV.freshFor .existential vs).1)
        ((b.rename π).subst (typerW.freshFor .existential ws).1)
        { s' with typer := { s'.typer with counter := d } }) := by
  obtain ⟨ρ, known, pairsV, pairsW⟩ := Typer.exists_pairing π .existential .existential
    (⟨le_rfl, Nat.le_add_right _ _, .inl le_rfl⟩ : Blocks s.typer.counter s.typer.counter vs.length
      (s.typer.counter + vs.length) ws.length) blocks
  let strict : Typer := strictFor s.typer vs ws
  have counter : strict.counter = s.typer.counter + vs.length + ws.length := rfl
  have le : s.typer.counter ≤ strict.counter := by omega
  have le' : s'.typer.counter ≤ d := by have := blocks.first; omega
  obtain ⟨sharedA, renamedA⟩ := beneathV.opened .existential s.typer typerV strict
    { s'.typer with counter := d } known pairsV le_rfl blocks.first (by omega) withinV
  obtain ⟨sharedB, renamedB⟩ := beneathW.opened .existential (stricten s.typer vs) typerW strict
    { s'.typer with counter := d } known (by rwa [counter_stricten])
    (by rw [counter_stricten]; omega) blocks.second (by rw [counter_stricten]) withinW
  have stricter' : Stricter δ ρ strict { s'.typer with counter := d } :=
    stricter_strict stricter known rfl rfl le le' rfl
      (fun x => not_older_of_mem_skolemsFor) fun r member => .inl member
  have agrees := reflects ρ { s with typer := strict }
    { s' with typer := { s'.typer with counter := d } } _ _ stricter' sharedA sharedB
  rw [renamedA, renamedB] at agrees
  rw [compareRigid_apply]
  generalize f _ _ _ = result at agrees ⊢
  generalize g _ _ _ = result' at agrees ⊢
  cases agrees with
  | clash => exact .clash
  | failed => exact .failed
  | @ok t t' together =>
    rw [closeRigid]
    split
    · exact .clash
    · have closed := together_close together known le le' fun r member =>
        List.mem_append_left _ member
      obtain ⟨ρ', onward⟩ := together
      have same : { t'.typer with rigid := s'.typer.rigid } = t'.typer := by rw [← onward.rigid']
      rw [same] at closed
      exact .ok closed

private theorem escapes_of_onward {ρ ρ' : Renaming} {strict strict' : Typer} {t t' : Session}
    {skolems skolems' : List TypeVar} (onward : Onward δ ρ ρ' strict strict' t.typer t'.typer)
    (known : ∀ v, Older s.typer.counter v → Older s'.typer.counter (π v) → ρ v = π v)
    (le : s.typer.counter ≤ strict.counter) (le' : s'.typer.counter ≤ strict'.counter)
    (rigid : ∀ x ∈ skolems, x ∈ strict.rigid)
    (origin : ∀ r ∈ skolems', ∃ u ∈ skolems, ρ u = r ∧ Older strict.counter u ∧
      Older strict'.counter r)
    (seen : ∀ w ∈ outside', ∃ u ∈ outside, π u = w ∧ Older s.typer.counter u ∧
      Older s'.typer.counter w)
    (escapes : t'.typer.escapes skolems' outside' = true) :
    t.typer.escapes skolems outside = true := by
  refine onward.twins.escapes ?_ ?_ ?_ escapes
  · exact fun x skolem => onward.unbound x (rigid x skolem)
  · intro x skolem
    obtain ⟨u, inside, rfl, older, older'⟩ := origin x skolem
    exact ⟨u, inside, onward.known u older older'⟩
  · intro w member
    obtain ⟨u, inside, rfl, older, older'⟩ := seen w member
    have here := known u older older'
    refine ⟨u, inside, (onward.known u (older.mono le) ?_).trans here⟩
    rw [here]
    exact older'.mono le'

private theorem agrees_compareRigid (reflects : Reflects δ f f) (whole whole' : Clash)
    (stricter : Stricter δ π s.typer s'.typer) (beneathV : Beneath δ π s.typer s'.typer vs a)
    (beneathW : Beneath δ π s.typer s'.typer ws b)
    (seen : ∀ w ∈ outside', ∃ u ∈ outside, π u = w ∧ Older s.typer.counter u ∧
      Older s'.typer.counter w) :
    Agrees (Together δ π s.typer s'.typer) (compareRigid f outside whole vs a ws b s)
      (compareRigid f outside' whole' vs (a.rename π) ws (b.rename π) s') := by
  obtain ⟨ρ, known, pairsV, pairsW⟩ := Typer.exists_pairing π .existential .existential
    (⟨le_rfl, Nat.le_add_right _ _, .inl le_rfl⟩ : Blocks s.typer.counter s.typer.counter vs.length
      (s.typer.counter + vs.length) ws.length)
    (⟨le_rfl, Nat.le_add_right _ _, .inl le_rfl⟩ : Blocks s'.typer.counter s'.typer.counter vs.length
      (s'.typer.counter + vs.length) ws.length)
  let strict : Typer := strictFor s.typer vs ws
  let strict' : Typer := strictFor s'.typer vs ws
  have counter : strict.counter = s.typer.counter + vs.length + ws.length := rfl
  have counter' : strict'.counter = s'.typer.counter + vs.length + ws.length := rfl
  have le : s.typer.counter ≤ strict.counter := by omega
  have le' : s'.typer.counter ≤ strict'.counter := by omega
  obtain ⟨sharedA, renamedA⟩ := beneathV.opened .existential s.typer s'.typer strict strict'
    known pairsV le_rfl le_rfl (by omega) (by omega)
  obtain ⟨sharedB, renamedB⟩ := beneathW.opened .existential (stricten s.typer vs)
    (stricten s'.typer vs) strict strict' known (by rwa [counter_stricten, counter_stricten])
    (by rw [counter_stricten]; omega) (by rw [counter_stricten]; omega)
    (by rw [counter_stricten]) (by rw [counter_stricten])
  have origin : ∀ r ∈ skolemsFor s'.typer vs, ∃ u ∈ skolemsFor s.typer vs, ρ u = r ∧
      Older strict.counter u ∧ Older strict'.counter r := fun r member =>
    exists_skolem pairsV (by omega) (by omega) member
  have stricter' : Stricter δ ρ strict strict' :=
    stricter_strict stricter known rfl rfl le le' rfl (fun x => not_older_of_mem_skolemsFor)
      fun r member => (List.mem_append.mp member).imp_right (origin r)
  have agrees := reflects ρ { s with typer := strict } { s' with typer := strict' } _ _ stricter'
    sharedA sharedB
  rw [renamedA, renamedB] at agrees
  rw [compareRigid_apply, compareRigid_apply]
  generalize f _ _ { s with typer := strict } = result at agrees ⊢
  generalize f _ _ { s' with typer := strict' } = result' at agrees ⊢
  cases agrees with
  | clash => exact .clash
  | failed => exact .failed
  | @ok t t' together =>
    rw [closeRigid, closeRigid]
    by_cases escapes : t.typer.escapes (skolemsFor s.typer vs) outside = true
    · rw [if_pos escapes]
      exact .clash
    · have closed := together_close together known le le' fun r member =>
        List.mem_append_left _ member
      obtain ⟨ρ', onward⟩ := together
      have escapes' : ¬t'.typer.escapes (skolemsFor s'.typer vs) outside' = true :=
        mt (escapes_of_onward onward known le le' (fun x => List.mem_append_right _) origin seen)
          escapes
      rw [if_neg escapes, if_neg escapes']
      exact .ok closed

end Schemes

section Trials

variable {P Q P' Q' : Typing Unit}

private theorem together_of_middle {σ τ σ' τ' middle : Typer} (left : Together δ π σ τ σ' middle)
    (right : Together δ .refl τ τ τ' middle) : Together δ π σ τ σ' τ' := by
  obtain ⟨ρ, onward⟩ := left
  obtain ⟨ρ', onward'⟩ := right
  refine ⟨ρ.trans ρ'.symm, fun v older older' => ?_, onward.twins.trans onward'.twins.symm,
    onward.unbound, onward.counter, onward'.counter, onward.rigid, onward'.rigid⟩
  have kept : ρ' (π v) = π v := onward'.known (π v) older' older'
  rw [Renaming.trans_apply, onward.known v older older', ← kept, Renaming.symm_apply, kept]

private theorem agrees_firstOf {middle : EStateM.Result UnifyFailure Session Unit}
    (loose : BothStricter (Together δ π s.typer s'.typer) P Q s.typer middle)
    (loose' : BothStricter (Together δ .refl s'.typer s'.typer) P' Q' s'.typer middle)
    (cross : ∀ z u : Session, z.typer = s.typer → P z = .ok () u ∨ Q z = .ok () u →
      (∀ z' : Session, z'.typer = s'.typer → ∃ u', P' z' = .ok () u') ∨
        ∀ z' : Session, z'.typer = s'.typer → ∃ u', Q' z' = .ok () u') :
    Agrees (Together δ π s.typer s'.typer) (firstOf P Q s) (firstOf P' Q' s') := by
  cases first : firstOf P Q s with
  | ok _ t =>
    obtain ⟨m, reached, left⟩ := loose.success first
    subst reached
    obtain ⟨z, u, typer, -, success⟩ := firstOf_eq_ok first
    obtain ⟨t', second⟩ := exists_firstOf_eq_ok (s := s') (fun z' u' typer' =>
      ⟨fun stopped => (stopped ▸ (loose' z' typer').1).not_stopped,
        fun stopped => (stopped ▸ (loose' z' typer').2).not_stopped⟩) (cross z u typer success)
    obtain ⟨m', same, right⟩ := loose'.success second
    cases same
    rw [second]
    exact .ok (together_of_middle left right)
  | error failure t =>
    cases failure with
    | clash c => exact .clash
    | tooDeep =>
      cases second : firstOf P' Q' s' with
      | error failure' t' => exact .failed
      | ok _ t' =>
        obtain ⟨m, reached, -⟩ := loose'.success second
        subst reached
        exact absurd first loose.not_stopped

end Trials

section Schemes

variable {vs ws : List TypeVar} {a b : Term} {outside outside' : List TypeVar} {whole whole' : Clash}

private theorem agrees_compareOpen (same : Reflects δ f f) (turned : Reflects δ f (flip f))
    (outside : List TypeVar) (whole : Clash) {z : Session} (typer : z.typer = s.typer)
    (stricter : Stricter δ π s.typer s'.typer) (beneathV : Beneath δ π s.typer s'.typer vs a)
    (beneathW : Beneath δ π s.typer s'.typer ws b) :
    Agrees (Together δ π s.typer s'.typer) (compareRigid f outside whole vs a ws b z)
        (compareOpen f vs (a.rename π) ws (b.rename π) s') ∧
      Agrees (Together δ π s.typer s'.typer) (compareRigid f outside whole ws b vs a z)
        (compareOpen f vs (a.rename π) ws (b.rename π) s') := by
  rw [← typer] at stricter beneathV beneathW ⊢
  rw [compareOpen_apply]
  have counter : (s'.typer.freshFor .existential vs).2.counter = s'.typer.counter + vs.length := by
    rw [Typer.freshFor_snd]
  constructor
  · exact agrees_compareRigid_loose same outside whole stricter beneathV beneathW s'.typer
      (s'.typer.freshFor .existential vs).2 ⟨le_rfl, by omega, .inl (by omega)⟩ (by omega) (by omega)
  · exact agrees_compareRigid_loose turned outside whole stricter beneathW beneathV
      (s'.typer.freshFor .existential vs).2 s'.typer ⟨by omega, le_rfl, .inr (by omega)⟩ (by omega)
      (by omega)

private theorem Beneath.self {σ τ : Typer} {t : Term} (beneath : Beneath δ π σ τ vs t) :
    Beneath δ .refl τ τ vs (t.rename π) := by
  refine ⟨beneath.given, beneath.plain.rename, beneath.follows.rename beneath.plain π,
    fun v free unbound => ?_⟩
  rw [beneath.plain.freeVars_rename] at free
  obtain ⟨u, own, rfl⟩ := List.mem_map.mp free
  have outside : u ∉ vs := mt (π.apply_mem_iff beneath.given u).mpr unbound
  exact ⟨(beneath.older u own outside).2, (beneath.older u own outside).2⟩

private theorem exists_compareRigid_eq_ok (same : Reflects δ f f)
    (stricter : Stricter δ π s.typer s'.typer) (beneathV : Beneath δ π s.typer s'.typer vs a)
    (beneathW : Beneath δ π s.typer s'.typer ws b)
    (seen : ∀ w ∈ outside', ∃ u ∈ outside, π u = w ∧ Older s.typer.counter u ∧
      Older s'.typer.counter w)
    {z u : Session} (typer : z.typer = s.typer)
    (success : compareRigid f outside whole vs a ws b z = .ok () u) (z' : Session)
    (typer' : z'.typer = s'.typer) :
    ∃ u', compareRigid f outside' whole' vs (a.rename π) ws (b.rename π) z' = .ok () u' := by
  rw [← typer, ← typer'] at stricter beneathV beneathW seen
  have agrees := agrees_compareRigid same whole whole' stricter beneathV beneathW seen
  rw [success] at agrees
  obtain ⟨u', success', -⟩ := agrees.success
  exact ⟨u', success'⟩

theorem agrees_unifySchemes (same : Reflects δ f f) (turned : Reflects δ f (flip f))
    (stricter : Stricter δ π s.typer s'.typer)
    (sharedA : (Term.scheme .every vs a).Shared δ π s.typer s'.typer)
    (sharedB : (Term.scheme .every ws b).Shared δ π s.typer s'.typer) :
    Agrees (Together δ π s.typer s'.typer) (unifySchemes f vs a ws b s)
        (unifySchemes f vs (a.rename π) ws (b.rename π) s') ∧
      Agrees (Together δ π s.typer s'.typer) (unifySchemes f vs a ws b s)
        (unifySchemes f ws (b.rename π) vs (a.rename π) s') := by
  have beneathV := beneath_scheme sharedA
  have beneathW := beneath_scheme sharedB
  have loose {outside : List TypeVar} {whole : Clash} (z : Session) (typer : z.typer = s.typer) :=
    agrees_compareOpen same turned outside whole typer stricter beneathV beneathW
  have loose' {outside : List TypeVar} {whole : Clash} (z : Session) (typer : z.typer = s'.typer) :=
    agrees_compareOpen same turned outside whole typer stricter.self beneathV.self beneathW.self
  simp only [Term.rename_refl] at loose'
  have seen : ∀ w ∈ s'.typer.visible (.scheme .every vs (a.rename π))
      (.scheme .every ws (b.rename π)), ∃ u ∈ s.typer.visible (.scheme .every vs a)
        (.scheme .every ws b), π u = w ∧ Older s.typer.counter u ∧ Older s'.typer.counter w :=
    fun w member => stricter.exists_visible sharedA sharedB member
  have seen' : ∀ w ∈ s'.typer.visible (.scheme .every ws (b.rename π))
      (.scheme .every vs (a.rename π)), ∃ u ∈ s.typer.visible (.scheme .every vs a)
        (.scheme .every ws b), π u = w ∧ Older s.typer.counter u ∧ Older s'.typer.counter w := by
    intro w member
    refine seen w ?_
    rw [Typer.mem_visible stricter.right.tidy] at member ⊢
    rwa [← or_assoc, or_comm (a := w ∈ _), or_assoc]
  constructor
  · refine agrees_firstOf loose loose' fun z u typer success => ?_
    rcases success with success | success
    · exact .inl (exists_compareRigid_eq_ok same stricter beneathV beneathW seen typer success)
    · exact .inr (exists_compareRigid_eq_ok same stricter beneathW beneathV seen typer success)
  · refine agrees_firstOf loose (fun z typer => (loose' z typer).symm) fun z u typer success => ?_
    rcases success with success | success
    · exact .inr (exists_compareRigid_eq_ok same stricter beneathV beneathW seen' typer success)
    · exact .inl (exists_compareRigid_eq_ok same stricter beneathW beneathV seen' typer success)

end Schemes

end Steps

end Typing

end TypedCalls
