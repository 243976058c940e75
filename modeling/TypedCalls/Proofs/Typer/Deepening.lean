import TypedCalls.Proofs.Typer.Lessons

/-!
How deep unification may go.

With more depth unification does the same, or goes on where it had to stop (`deepens_unifyWithin`).
Looking through two variables takes one step or two, depending on which of them comes first, and so
does opening two schemes. `meetWithin` counts it as one step, so it needs the same depth in either
order; it is deeper than `unifyWithin` at the same depth, and no deeper than it at twice the depth.
-/

set_option autoImplicit false

namespace TypedCalls.Typing

variable {α β : Type}

def Deepens (first second : Typing α) : Prop :=
  ∀ s, (∃ s', first s = .error .tooDeep s') ∨ second s = first s

namespace Deepens

private theorem refl (m : Typing α) : Deepens m m := fun _ => .inr rfl

private theorem trans {m m' m'' : Typing α} (first : Deepens m m') (second : Deepens m' m'') :
    Deepens m m'' := by
  intro s
  rcases first s with stopped | same
  · exact .inl stopped
  · rcases second s with ⟨s', stopped⟩ | same'
    · exact .inl ⟨s', same ▸ stopped⟩
    · exact .inr (same'.trans same)

theorem result {m m' : Typing α} (deepens : Deepens m m') {s : Session}
    {outcome : EStateM.Result UnifyFailure Session α} (ran : m s = outcome)
    (finished : ∀ s', outcome ≠ .error .tooDeep s') : m' s = outcome := by
  rcases deepens s with ⟨s', stopped⟩ | same
  · exact absurd (ran.symm.trans stopped) (finished s')
  · exact same.trans ran

private theorem bind {m m' : Typing α} {next next' : α → Typing β} (first : Deepens m m')
    (second : ∀ a, Deepens (next a) (next' a)) : Deepens (m >>= next) (m' >>= next') := by
  intro s
  show (∃ s', EStateM.bind m next s = .error .tooDeep s') ∨
    EStateM.bind m' next' s = EStateM.bind m next s
  unfold EStateM.bind
  rcases first s with ⟨s', stopped⟩ | same
  · exact .inl ⟨s', by rw [stopped]⟩
  · rw [same]
    cases m s with
    | ok a s' => exact second a s'
    | error failure s' => exact .inr rfl

private theorem firstOf {first first' second second' : Typing Unit} (one : Deepens first first')
    (two : Deepens second second') :
    Deepens (firstOf first second) (firstOf first' second') := by
  intro s
  unfold Typing.firstOf
  have tried := one s.trial
  generalize first s.trial = result at tried ⊢
  generalize first' s.trial = result' at tried ⊢
  rcases tried with ⟨t, rfl⟩ | rfl
  · exact .inl ⟨_, rfl⟩
  · cases result' with
    | ok _ t => exact .inr rfl
    | error failure t =>
      cases failure with
      | tooDeep => exact .inr rfl
      | clash c =>
        dsimp only
        have retried := two (s.discard t.report).trial
        generalize second (s.discard t.report).trial = result at retried ⊢
        generalize second' (s.discard t.report).trial = result' at retried ⊢
        rcases retried with ⟨u, rfl⟩ | rfl
        · exact .inl ⟨_, rfl⟩
        · exact .inr rfl

end Deepens

def DeepensAll (unify unify' : Term → Term → Typing Unit) : Prop :=
  ∀ a b, Deepens (unify a b) (unify' a b)

section Steps

variable {unify unify' : Term → Term → Typing Unit} (deepens : DeepensAll unify unify')

include deepens

private theorem deepens_unifyEach (as bs : List Term) :
    Deepens (unifyEach unify as bs) (unifyEach unify' as bs) := by
  rw [unifyEach, unifyEach]
  induction as.zip bs with
  | nil => exact .refl _
  | cons pair pairs ih => exact (deepens pair.1 pair.2).bind fun _ => ih

private theorem deepens_unifyVar (v : TypeVar) (t : Term) :
    Deepens (unifyVar unify v t) (unifyVar unify' v t) := by
  refine (Deepens.refl current).bind fun typer => ?_
  cases typer.classes.bound? v with
  | some bound => exact deepens bound t
  | none => exact .refl _

private theorem deepens_unifyOpened (other : Term) (quantifier : Quantifier) (vars : List TypeVar)
    (body : Term) :
    Deepens (unifyOpened unify other quantifier vars body)
      (unifyOpened unify' other quantifier vars body) :=
  (Deepens.refl _).bind fun opened => deepens other opened

private theorem deepens_unifyFunctions (vs : List TypeVar) (ps : List Term) (s : Term)
    (ws : List TypeVar) (qs : List Term) (t : Term) :
    Deepens (unifyFunctions unify vs ps s ws qs t) (unifyFunctions unify' vs ps s ws qs t) :=
  (Deepens.refl _).bind fun left => (Deepens.refl _).bind fun right =>
    deepens_unifyEach deepens left right

private theorem deepens_compareRigid (outside : List TypeVar) (whole : Clash) (vs : List TypeVar)
    (a : Term) (ws : List TypeVar) (b : Term) :
    Deepens (compareRigid unify outside whole vs a ws b)
      (compareRigid unify' outside whole vs a ws b) :=
  (Deepens.refl _).bind fun _ => (Deepens.refl _).bind fun _ => (Deepens.refl _).bind fun right =>
    (deepens _ right).bind fun _ => .refl _

private theorem deepens_unifySchemes (vs : List TypeVar) (s : Term) (ws : List TypeVar) (t : Term) :
    Deepens (unifySchemes unify vs s ws t) (unifySchemes unify' vs s ws t) :=
  (Deepens.refl _).bind fun _ =>
    .firstOf (deepens_compareRigid deepens _ _ vs s ws t) (deepens_compareRigid deepens _ _ ws t vs s)

private theorem deepens_unifyStep : DeepensAll (unifyStep unify) (unifyStep unify') := by
  intro a b
  unfold unifyStep
  by_cases equal : a = b
  · rw [if_pos equal, if_pos equal]
    exact .refl _
  · rw [if_neg equal, if_neg equal]
    split
    · exact deepens_unifyVar deepens _ _
    · exact deepens_unifyVar deepens _ _
    · exact deepens_unifySchemes deepens _ _ _ _
    · exact deepens_unifyOpened deepens _ _ _ _
    · exact deepens_unifyOpened deepens _ _ _ _
    · split
      · exact deepens_unifyFunctions deepens _ _ _ _ _ _
      · exact .refl _
    · exact .refl _
    · exact .refl _
    · split
      · exact .refl _
      · split
        · exact .refl _
        · exact deepens_unifyEach deepens _ _

end Steps

private theorem deepens_stop (m : Typing Unit) :
    Deepens (throw .tooDeep) m := fun s => .inl ⟨s, rfl⟩

private theorem deepens_unifyWithin_succ (depth : Nat) :
    DeepensAll (unifyWithin depth) (unifyWithin (depth + 1)) := by
  induction depth with
  | zero => exact fun a b => deepens_stop _
  | succ depth ih => exact deepens_unifyStep ih

theorem deepens_unifyWithin {depth depth' : Nat} (le : depth ≤ depth') :
    DeepensAll (unifyWithin depth) (unifyWithin depth') := by
  induction le with
  | refl => exact fun a b => .refl _
  | step _ ih => exact fun a b => (ih a b).trans (deepens_unifyWithin_succ _ a b)

/-- Two terms of which a step leaves one as it is: two variables, or two schemes that are not both
universal. -/
def twofold : Term → Term → Bool
  | .use _, .use _ => true
  | .scheme .every _ _, .scheme .every _ _ => false
  | .scheme .., .scheme .. => true
  | _, _ => false

/-- Make two terms equal, leaving their parts to `unify`; two variables are both looked through, and
two schemes are both opened. -/
def meetStep (unify : Term → Term → Typing Unit) (a b : Term) : Typing Unit :=
  if twofold a b then unifyStep (unifyStep unify) a b else unifyStep unify a b

def meetWithin : Nat → Term → Term → Typing Unit
  | 0, _, _ => throw .tooDeep
  | depth + 1, a, b => meetStep (meetWithin depth) a b

theorem meetStep_of_single (unify : Term → Term → Typing Unit) {a b : Term}
    (single : twofold a b = false) : meetStep unify a b = unifyStep unify a b := by
  rw [meetStep, single, if_neg Bool.false_ne_true]

theorem deepens_meetWithin (depth : Nat) :
    DeepensAll (unifyWithin depth) (meetWithin depth) := by
  induction depth with
  | zero => exact fun a b => .refl _
  | succ depth ih =>
    intro a b
    show Deepens (unifyStep (unifyWithin depth) a b) (meetStep (meetWithin depth) a b)
    unfold meetStep
    split
    · refine deepens_unifyStep (fun a b => ?_) _ _
      cases depth with
      | zero => exact deepens_stop _
      | succ depth =>
        have deeper : DeepensAll (unifyWithin depth) (meetWithin (depth + 1)) :=
          fun a b => (deepens_unifyWithin_succ depth a b).trans (ih a b)
        exact deepens_unifyStep deeper a b
    · exact deepens_unifyStep ih _ _

theorem deepens_unifyWithin_double (depth : Nat) :
    DeepensAll (meetWithin depth) (unifyWithin (2 * depth)) := by
  induction depth with
  | zero => exact fun a b => .refl _
  | succ depth ih =>
    intro a b
    show Deepens (meetStep (meetWithin depth) a b)
      (unifyStep (unifyStep (unifyWithin (2 * depth))) a b)
    unfold meetStep
    split
    · exact deepens_unifyStep (deepens_unifyStep ih) _ _
    · exact deepens_unifyStep (fun a b => (ih a b).trans (deepens_unifyWithin_succ _ a b)) _ _

end TypedCalls.Typing
