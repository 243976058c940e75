import TypedCalls.Proofs.Typer.Acyclicity
import TypedCalls.Proofs.Typer.Trials

/-!
Unification in either order.

One comparison of two terms goes by their shapes, and so does the comparison of the same terms the
other way round. If all quantifiers are universal, or all stand in rows with the universal ones first
and a solid term below, two terms unify in one order just if they unify in the other
(`unify_order_independent`). An existential quantifier right over a universal one breaks this, because
the quantifier that is met first is opened first (`unify_order_dependent`).
-/

set_option autoImplicit false

namespace TypedCalls

open Typer (Twins Stricter Blocks Onward Together)
open TypeVar (Older numbered)

namespace Typing

section Steps

variable {f g : Term → Term → Typing Unit} {π : Renaming} {s s' : Session}

theorem unifyStep_self (f : Term → Term → Typing Unit) (a : Term) (s : Session) :
    unifyStep f a a s = .ok () s := by
  unfold unifyStep
  rw [if_pos rfl]
  rfl

private theorem meetStep_self (f : Term → Term → Typing Unit) (a : Term) (s : Session) :
    meetStep f a a s = .ok () s := by
  unfold meetStep
  split
  · exact unifyStep_self (unifyStep f) a s
  · exact unifyStep_self f a s

theorem unifyStep_use_left (f : Term → Term → Typing Unit) (v : TypeVar) {t : Term}
    (differ : Term.use v ≠ t) : unifyStep f (.use v) t = unifyVar f v t := by
  rw [unifyStep, if_neg differ]

private theorem unifyStep_use_right (f : Term → Term → Typing Unit) {t : Term}
    (notUse : ∀ w, t ≠ .use w) (v : TypeVar) : unifyStep f t (.use v) = unifyVar f v t := by
  rw [unifyStep, if_neg (notUse v)]
  exact fun w equal => notUse w equal

private theorem twofold_use {v : TypeVar} {t : Term} (notUse : ∀ w, t ≠ .use w) :
    twofold (.use v) t = false ∧ twofold t (.use v) = false := by
  cases t with
  | use w => exact absurd rfl (notUse w)
  | con head args => exact ⟨rfl, rfl⟩
  | scheme quantifier vars body => exact ⟨rfl, by cases quantifier <;> rfl⟩
  | func typeParams params result => exact ⟨rfl, rfl⟩

def Shaped : Term → Prop
  | .con .. | .func .. => True
  | .use _ | .scheme .. => False

private theorem shaped_of_solid {t : Term} (solid : t.Solid) : Shaped t := by
  cases solid with
  | bare bare =>
    cases t with
    | use v => exact bare
    | scheme quantifier vars body => exact bare
    | con head args => trivial
    | func typeParams params result => trivial
  | marked bare => trivial
  | markedVar v => trivial

theorem unifyStep_scheme (f : Term → Term → Typing Unit) (quantifier : Quantifier)
    (vars : List TypeVar) (body : Term) {t : Term} (shaped : Shaped t) :
    unifyStep f (.scheme quantifier vars body) t = unifyOpened f t quantifier vars body ∧
      unifyStep f t (.scheme quantifier vars body) = unifyOpened f t quantifier vars body := by
  cases t with
  | use w => exact shaped.elim
  | scheme other ws u => exact shaped.elim
  | con head args => cases quantifier <;> simp [unifyStep]
  | func typeParams params result => cases quantifier <;> simp [unifyStep]

private theorem meetStep_scheme (f : Term → Term → Typing Unit) (quantifier : Quantifier)
    (vars : List TypeVar) (body : Term) {t : Term} (shaped : Shaped t) :
    meetStep f (.scheme quantifier vars body) t = unifyOpened f t quantifier vars body ∧
      meetStep f t (.scheme quantifier vars body) = unifyOpened f t quantifier vars body := by
  obtain ⟨left, right⟩ := unifyStep_scheme f quantifier vars body shaped
  have single : twofold (.scheme quantifier vars body) t = false ∧
      twofold t (.scheme quantifier vars body) = false := by
    cases t with
    | use w => exact shaped.elim
    | scheme other ws u => exact shaped.elim
    | con head args => cases quantifier <;> exact ⟨rfl, rfl⟩
    | func typeParams params result => cases quantifier <;> exact ⟨rfl, rfl⟩
  rw [meetStep_of_single f single.1, meetStep_of_single f single.2]
  exact ⟨left, right⟩

private theorem unifyStep_scheme_left (f : Term → Term → Typing Unit) {q : Quantifier}
    {vars : List TypeVar} {body t : Term} (differ : Term.scheme q vars body ≠ t)
    (notUse : ∀ w, t ≠ .use w) (mixed : ∀ ws u, t = .scheme .every ws u → q ≠ .every) :
    unifyStep f (.scheme q vars body) t = unifyOpened f t q vars body := by
  rw [unifyStep, if_neg differ]
  · exact notUse
  · exact mixed

private theorem opened_cases {q : Quantifier} {vs : List TypeVar} {a : Term}
    (covers : a.Covers q vs)
    (plain : (Term.scheme q vs a).Plain) (typer : Typer) (family : Family) :
    Shaped (a.subst (typer.freshFor family vs).1) ∨
      ∃ inner us c, a.subst (typer.freshFor family vs).1 = .scheme inner us c ∧
        (q = .some → inner = .some) ∧
        ∃ w ∈ (Term.scheme inner us c).freeVars, ¬Older typer.counter w := by
  cases covers with
  | solid solid =>
    left
    rw [typer.subst_freshFor family (Term.plain_scheme.mp plain).1]
    have images := Term.exists_use_of_image (typer.exists_opening_eq_use family vs)
    exact shaped_of_solid (solid.replace images [])
  | scheme order bound free =>
    exact .inr ⟨_, _, _, rfl, order, typer.exists_new_of_mem family plain.1 plain.2 bound free⟩
  | marked order bound free =>
    have new := typer.exists_new_of_mem family plain.1 plain.2 bound
      (Term.mem_freeVars_con.mpr ⟨_, List.mem_singleton_self _, free⟩)
    rw [Term.subst, Term.substWithin, Term.replace_con, List.map_singleton,
      Term.applied_nullableHead] at new ⊢
    exact .inr ⟨_, _, _, rfl, order, new⟩

private theorem meetStep_schemes (f : Term → Term → Typing Unit) {q q' : Quantifier}
    {vs ws : List TypeVar} {a b : Term} (mixed : ¬(q = .every ∧ q' = .every))
    (differ : Term.scheme q vs a ≠ .scheme q' ws b) (covers : a.Covers q vs)
    (plain : (Term.scheme q vs a).Plain) {s : Session}
    (older : ∀ v ∈ (Term.scheme q' ws b).freeVars, Older s.typer.counter v) :
    meetStep f (.scheme q vs a) (.scheme q' ws b) s =
      f (a.subst (s.typer.freshFor (familyOf q) vs).1)
        (b.subst ((s.typer.freshFor (familyOf q) vs).2.freshFor (familyOf q') ws).1)
        { s with typer := { s.typer with
          counter := s.typer.counter + vs.length + ws.length } } := by
  have twice : meetStep f (.scheme q vs a) (.scheme q' ws b) =
      unifyOpened (unifyStep f) (.scheme q' ws b) q vs a := by
    cases q <;> cases q' <;> simp_all [meetStep, twofold, unifyStep]
  have opens : unifyStep f (.scheme q' ws b) (a.subst (s.typer.freshFor (familyOf q) vs).1) =
      unifyOpened f (a.subst (s.typer.freshFor (familyOf q) vs).1) q' ws b := by
    rcases opened_cases covers plain s.typer (familyOf q) with
      shaped | ⟨inner, us, c, equal, order, w, free, new⟩
    · exact (unifyStep_scheme f q' ws b shaped).1
    · rw [equal]
      refine unifyStep_scheme_left f (fun same => new (older w (same ▸ free))) (by simp) ?_
      rintro us c ⟨rfl⟩ rfl
      cases q with
      | every => exact mixed ⟨rfl, rfl⟩
      | some => cases order rfl
  rw [twice, ← s.typer.freshFor_twice_snd (familyOf q) (familyOf q') vs ws]
  show unifyStep f (.scheme q' ws b) (a.subst (s.typer.freshFor (familyOf q) vs).1) _ = _
  rw [opens]
  rfl

private theorem bothAllowed {δ : Discipline} {q q' : Quantifier} {vs ws : List TypeVar} {a b : Term}
    (allowsA : δ.Allows (.scheme q vs a)) (allowsB : δ.Allows (.scheme q' ws b)) :
    q = .every ∧ q' = .every ∨
      ¬(q = .every ∧ q' = .every) ∧ a.Covers q vs ∧ b.Covers q' ws := by
  by_cases universal : q = .every ∧ q' = .every
  · exact .inl universal
  · cases δ with
    | universal => exact .inl ⟨allowsA, allowsB⟩
    | universalFirst => exact .inr ⟨universal, allowsA, allowsB⟩

variable {δ : Discipline}

def BothWays (δ : Discipline) (f : Term → Term → Typing Unit) (π : Renaming) (s s' : Session)
    (a b : Term) : Prop :=
  Agrees (Together δ π s.typer s'.typer) (f a b s) (f (a.rename π) (b.rename π) s') ∧
    Agrees (Together δ π s.typer s'.typer) (f a b s) (f (b.rename π) (a.rename π) s')

private theorem meetStep_use_use (f : Term → Term → Typing Unit) (sound : s.typer.Sound (.plain δ))
    {v w : TypeVar} (differ : v ≠ w) :
    (∀ t u, s.typer.classes.bound? v = some t → s.typer.classes.bound? w = some u →
      meetStep f (.use v) (.use w) s = f u t s) ∧
    (∀ t, s.typer.classes.bound? v = some t → s.typer.classes.bound? w = none →
      meetStep f (.use v) (.use w) s = learn w t s) ∧
    (s.typer.classes.bound? v = none →
      meetStep f (.use v) (.use w) s = learn v (.use w) s) := by
  have looked : meetStep f (.use v) (.use w) s = unifyVar (unifyStep f) v (.use w) s := by
    have twice : meetStep f (.use v) (.use w) = unifyStep (unifyStep f) (.use v) (.use w) :=
      if_pos rfl
    rw [twice, unifyStep_use_left _ _ fun equal => differ (Term.use.inj equal)]
  rw [looked, unifyVar_apply]
  refine ⟨fun t u boundV boundW => ?_, fun t boundV unboundW => ?_, fun unboundV => ?_⟩
  · rw [boundV]
    show unifyStep f t (.use w) s = _
    rw [unifyStep_use_right f (sound.bound boundV).2, unifyVar_apply, boundW]
  · rw [boundV]
    show unifyStep f t (.use w) s = _
    rw [unifyStep_use_right f (sound.bound boundV).2, unifyVar_apply, unboundW]
  · rw [unboundV]

private theorem bothWays_vars (same : Reflects δ f f) (turned : Reflects δ f (flip f))
    (stricter : Stricter δ π s.typer s'.typer) {v w : TypeVar} (differ : v ≠ w)
    (sharedV : (Term.use v).Shared δ π s.typer s'.typer)
    (sharedW : (Term.use w).Shared δ π s.typer s'.typer) :
    BothWays δ (meetStep f) π s s' (.use v) (.use w) := by
  have differ' : π v ≠ π w := mt π.apply_inj.mp differ
  show Agrees _ _ (meetStep f (.use (π v)) (.use (π w)) s') ∧
    Agrees _ _ (meetStep f (.use (π w)) (.use (π v)) s')
  obtain ⟨bothBound, firstBound, firstOpen⟩ := meetStep_use_use f stricter.left differ
  obtain ⟨bothBound', firstBound', firstOpen'⟩ := meetStep_use_use f stricter.right differ'
  obtain ⟨turnedBound, turnedFirst, turnedOpen⟩ := meetStep_use_use f stricter.right (Ne.symm differ')
  cases boundV : s.typer.classes.bound? v with
  | some t =>
    have sharedT := stricter.shared_of_bound boundV
    have boundV' := stricter.bound_some boundV
    have notUse := (stricter.left.bound boundV).2
    have notUse' := (stricter.right.bound boundV').2
    cases boundW : s.typer.classes.bound? w with
    | some u =>
      have sharedU := stricter.shared_of_bound boundW
      have boundW' := stricter.bound_some boundW
      rw [bothBound t u boundV boundW, bothBound' _ _ boundV' boundW', turnedBound _ _ boundW' boundV']
      exact ⟨same π s s' u t stricter sharedU sharedT, turned π s s' u t stricter sharedU sharedT⟩
    | none =>
      have unboundW' := (stricter.unbound_iff w).mpr boundW
      rw [firstBound t boundV boundW, firstBound' _ boundV' unboundW', turnedOpen unboundW']
      exact ⟨agrees_learn stricter sharedW boundW sharedT (.itself notUse) (.itself notUse'),
        agrees_learn stricter sharedW boundW sharedT (.itself notUse) (.through boundV')⟩
  | none =>
    have unboundV' := (stricter.unbound_iff v).mpr boundV
    rw [firstOpen boundV, firstOpen' unboundV']
    cases boundW : s.typer.classes.bound? w with
    | some u =>
      have sharedU := stricter.shared_of_bound boundW
      have boundW' := stricter.bound_some boundW
      have notUse' := (stricter.right.bound boundW').2
      rw [turnedFirst _ boundW' unboundV']
      exact ⟨agrees_learn stricter sharedV boundV sharedU (.through boundW) (.through boundW'),
        agrees_learn stricter sharedV boundV sharedU (.through boundW) (.itself notUse')⟩
    | none =>
      rw [turnedOpen ((stricter.unbound_iff w).mpr boundW)]
      exact ⟨agrees_equate stricter sharedV sharedW boundV boundW (.inl ⟨rfl, rfl⟩),
        agrees_equate stricter sharedV sharedW boundV boundW (.inr ⟨rfl, rfl⟩)⟩

private theorem bothWays_var (same : Reflects δ f f) (stricter : Stricter δ π s.typer s'.typer)
    {v : TypeVar} {t : Term} (sharedV : (Term.use v).Shared δ π s.typer s'.typer)
    (shared : t.Shared δ π s.typer s'.typer) (notUse : ∀ w, t ≠ .use w) :
    BothWays δ (meetStep f) π s s' (.use v) t ∧ BothWays δ (meetStep f) π s s' t (.use v) := by
  have notUse' : ∀ w, t.rename π ≠ .use w := by
    intro w
    cases t with
    | use u => exact absurd rfl (notUse u)
    | con head args => simp [Term.rename]
    | scheme quantifier vars body => simp [Term.rename]
    | func typeParams params result => simp [Term.rename]
  have agrees := agrees_unifyVar same stricter sharedV shared notUse notUse'
  have left : meetStep f (.use v) t = unifyVar f v t := by
    rw [meetStep_of_single f (twofold_use notUse).1, unifyStep_use_left f _ (Ne.symm (notUse v))]
  have right : meetStep f t (.use v) = unifyVar f v t := by
    rw [meetStep_of_single f (twofold_use notUse).2, unifyStep_use_right f notUse]
  have left' : meetStep f (.use (π v)) (t.rename π) = unifyVar f (π v) (t.rename π) := by
    rw [meetStep_of_single f (twofold_use notUse').1, unifyStep_use_left f _ (Ne.symm (notUse' (π v)))]
  have right' : meetStep f (t.rename π) (.use (π v)) = unifyVar f (π v) (t.rename π) := by
    rw [meetStep_of_single f (twofold_use notUse').2, unifyStep_use_right f notUse']
  unfold BothWays
  rw [Term.rename, left, right, left', right']
  exact ⟨⟨agrees, agrees⟩, agrees, agrees⟩

private theorem bothWays_scheme (same : Reflects δ f f) (stricter : Stricter δ π s.typer s'.typer)
    {quantifier : Quantifier} {vars : List TypeVar} {body t : Term}
    (sharedV : (Term.scheme quantifier vars body).Shared δ π s.typer s'.typer)
    (shared : t.Shared δ π s.typer s'.typer) (shaped : Shaped t) :
    BothWays δ (meetStep f) π s s' (.scheme quantifier vars body) t ∧
      BothWays δ (meetStep f) π s s' t (.scheme quantifier vars body) := by
  have agrees : Agrees (Together δ π s.typer s'.typer) (unifyOpened f t quantifier vars body s)
      (unifyOpened f (t.rename π) quantifier vars (body.rename π) s') :=
    agrees_unifyOpened same stricter shared (beneath_scheme sharedV)
  have shaped' : Shaped (t.rename π) := by
    cases t with
    | use w => exact shaped
    | scheme other ws u => exact shaped
    | con head args => trivial
    | func typeParams params result => trivial
  obtain ⟨left, right⟩ := meetStep_scheme f quantifier vars body shaped
  obtain ⟨left', right'⟩ := meetStep_scheme f quantifier vars (body.rename π) shaped'
  unfold BothWays
  rw [Term.rename, left, right, left', right']
  exact ⟨⟨agrees, agrees⟩, agrees, agrees⟩

private theorem bothWays_mixed (same : Reflects δ f f) (turned : Reflects δ f (flip f))
    (stricter : Stricter δ π s.typer s'.typer) {q q' : Quantifier} {vs ws : List TypeVar} {a b : Term}
    (sharedA : (Term.scheme q vs a).Shared δ π s.typer s'.typer)
    (sharedB : (Term.scheme q' ws b).Shared δ π s.typer s'.typer)
    (mixed : ¬(q = .every ∧ q' = .every)) (coversA : a.Covers q vs) (coversB : b.Covers q' ws)
    (differ : Term.scheme q vs a ≠ .scheme q' ws b) :
    BothWays δ (meetStep f) π s s' (.scheme q vs a) (.scheme q' ws b) := by
  have mixed' : ¬(q' = .every ∧ q = .every) := fun both => mixed ⟨both.2, both.1⟩
  have differ' : (Term.scheme q vs a).rename π ≠ (Term.scheme q' ws b).rename π :=
    mt (Term.rename_inj π).mp differ
  have coversA' := coversA.rename sharedA.left.plain.2 sharedA.left.plain.1 π
  have coversB' := coversB.rename sharedB.left.plain.2 sharedB.left.plain.1 π
  have counter (typer : Typer) (family : Family) (vars : List TypeVar) :
      (typer.freshFor family vars).2.counter = typer.counter + vars.length := by
    rw [Typer.freshFor_snd]
  unfold BothWays
  rw [Term.rename, Term.rename] at differ' ⊢
  rw [meetStep_schemes f mixed differ coversA sharedA.left.plain sharedB.left.older,
    meetStep_schemes f mixed differ' coversA' sharedA.right.plain sharedB.right.older,
    meetStep_schemes f mixed' (Ne.symm differ') coversB' sharedB.right.plain sharedA.right.older]
  constructor
  · refine agrees_openedPair s.typer _ s'.typer _ ⟨le_rfl, ?_, .inl ?_⟩ ⟨le_rfl, ?_, .inl ?_⟩
      (by omega) ?_ (by omega) ?_ same stricter (familyOf q) (familyOf q') (beneath_scheme sharedA)
      (beneath_scheme sharedB) <;> rw [counter] <;> omega
  · refine agrees_openedPair s.typer _ _ s'.typer ⟨le_rfl, ?_, .inl ?_⟩ ⟨?_, le_rfl, .inr ?_⟩
      (by omega) ?_ ?_ (by omega) turned stricter (familyOf q) (familyOf q') (beneath_scheme sharedA)
      (beneath_scheme sharedB) <;> rw [counter] <;> omega

private theorem bothWays_schemes (same : Reflects δ f f) (turned : Reflects δ f (flip f))
    (stricter : Stricter δ π s.typer s'.typer) {vs ws : List TypeVar} {a b : Term}
    (sharedA : (Term.scheme .every vs a).Shared δ π s.typer s'.typer)
    (sharedB : (Term.scheme .every ws b).Shared δ π s.typer s'.typer)
    (differ : Term.scheme .every vs a ≠ .scheme .every ws b)
    (differ' : (Term.scheme .every vs a).rename π ≠ (Term.scheme .every ws b).rename π) :
    BothWays δ (meetStep f) π s s' (.scheme .every vs a) (.scheme .every ws b) := by
  have compares {vs ws : List TypeVar} {a b : Term}
      (differ : Term.scheme .every vs a ≠ .scheme .every ws b) :
      meetStep f (.scheme .every vs a) (.scheme .every ws b) = unifySchemes f vs a ws b :=
    if_neg differ
  unfold BothWays
  rw [Term.rename] at differ' ⊢
  rw [compares differ, Term.rename, compares differ', compares (Ne.symm differ')]
  exact agrees_unifySchemes same turned stricter sharedA sharedB

private theorem bothWays_functions (same : Reflects δ f f) (turned : Reflects δ f (flip f))
    (stricter : Stricter δ π s.typer s'.typer) {vs ws : List TypeVar} {ps qs : List Term} {r t : Term}
    (sharedA : (Term.func vs ps r).Shared δ π s.typer s'.typer)
    (sharedB : (Term.func ws qs t).Shared δ π s.typer s'.typer)
    (differ : Term.func vs ps r ≠ .func ws qs t)
    (differ' : (Term.func vs ps r).rename π ≠ (Term.func ws qs t).rename π) :
    BothWays δ (meetStep f) π s s' (.func vs ps r) (.func ws qs t) := by
  have compares {vs ws : List TypeVar} {ps qs : List Term} {r t : Term}
      (differ : Term.func vs ps r ≠ .func ws qs t) :
      meetStep f (.func vs ps r) (.func ws qs t) = if ps.length = qs.length
        then unifyFunctions f vs ps r ws qs t
        else clash .parameterCounts (.func vs ps r) (.func ws qs t) := if_neg differ
  unfold BothWays
  rw [Term.rename_func, Term.rename_func] at differ' ⊢
  rw [compares differ, compares differ', compares (Ne.symm differ'), List.length_map,
    List.length_map]
  by_cases lengths : ps.length = qs.length
  · rw [if_pos lengths, if_pos lengths, if_pos lengths.symm]
    exact ⟨agrees_unifyFunctions same stricter sharedA sharedB,
      agrees_unifyFunctions_flip turned stricter sharedA sharedB⟩
  · rw [if_neg lengths]
    exact ⟨.clash, .clash⟩

private theorem bothWays_constructed (same : Reflects δ f f) (turned : Reflects δ f (flip f))
    (stricter : Stricter δ π s.typer s'.typer) {h k : String} {as bs : List Term}
    (sharedA : (Term.con h as).Shared δ π s.typer s'.typer)
    (sharedB : (Term.con k bs).Shared δ π s.typer s'.typer)
    (differ : Term.con h as ≠ .con k bs)
    (differ' : (Term.con h as).rename π ≠ (Term.con k bs).rename π) :
    BothWays δ (meetStep f) π s s' (.con h as) (.con k bs) := by
  have compares {h k : String} {as bs : List Term} (differ : Term.con h as ≠ .con k bs) :
      meetStep f (.con h as) (.con k bs) = if h ≠ k then clash .heads (.con h as) (.con k bs)
        else if as.length ≠ bs.length then clash .argumentCounts (.con h as) (.con k bs)
        else unifyEach f as bs := if_neg differ
  unfold BothWays
  rw [Term.rename_con, Term.rename_con] at differ' ⊢
  rw [compares differ, compares differ', compares (Ne.symm differ'), List.length_map,
    List.length_map]
  by_cases heads : h = k
  · by_cases lengths : as.length = bs.length
    · rw [if_neg (not_not.mpr heads), if_neg (not_not.mpr lengths), if_neg (not_not.mpr heads),
        if_neg (not_not.mpr lengths), if_neg (not_not.mpr heads.symm),
        if_neg (not_not.mpr lengths.symm), ← unifyEach_flip f (as.map _)]
      exact ⟨agrees_unifyEach same stricter sharedA.argument sharedB.argument,
        agrees_unifyEach turned stricter sharedA.argument sharedB.argument⟩
    · rw [if_neg (not_not.mpr heads), if_pos lengths]
      exact ⟨.clash, .clash⟩
  · rw [if_pos heads]
    exact ⟨.clash, .clash⟩

private theorem bothWays_unlike {h : String} {as ps : List Term} {vs : List TypeVar} {r : Term} :
    BothWays δ (meetStep f) π s s' (.con h as) (.func vs ps r) ∧
      BothWays δ (meetStep f) π s s' (.func vs ps r) (.con h as) := by
  have left : meetStep f (.con h as) (.func vs ps r) =
      clash .notFunction (.func vs ps r) (.con h as) := by simp [meetStep, unifyStep]
  have right : meetStep f (.func vs ps r) (.con h as) =
      clash .notFunction (.func vs ps r) (.con h as) := by simp [meetStep, unifyStep]
  unfold BothWays
  rw [left, right]
  exact ⟨⟨.clash, .clash⟩, .clash, .clash⟩

private theorem bothWays_meetStep (same : Reflects δ f f) (turned : Reflects δ f (flip f))
    (stricter : Stricter δ π s.typer s'.typer) {a b : Term} (sharedA : a.Shared δ π s.typer s'.typer)
    (sharedB : b.Shared δ π s.typer s'.typer) : BothWays δ (meetStep f) π s s' a b := by
  by_cases differ : a = b
  · subst differ
    rw [BothWays, meetStep_self, meetStep_self]
    exact ⟨.ok ⟨π, stricter.onward⟩, .ok ⟨π, stricter.onward⟩⟩
  have differ' : a.rename π ≠ b.rename π := mt (Term.rename_inj π).mp differ
  cases a with
  | use v =>
    cases b with
    | use w => exact bothWays_vars same turned stricter (by simpa using differ) sharedA sharedB
    | con k bs => exact (bothWays_var same stricter sharedA sharedB (by simp)).1
    | scheme q ws b => exact (bothWays_var same stricter sharedA sharedB (by simp)).1
    | func ws qs t => exact (bothWays_var same stricter sharedA sharedB (by simp)).1
  | con h as =>
    cases b with
    | use w => exact (bothWays_var same stricter sharedB sharedA (by simp)).2
    | con k bs => exact bothWays_constructed same turned stricter sharedA sharedB differ differ'
    | scheme q ws b => exact (bothWays_scheme same stricter sharedB sharedA trivial).2
    | func ws qs t => exact bothWays_unlike.1
  | scheme q vs a =>
    cases b with
    | use w => exact (bothWays_var same stricter sharedB sharedA (by simp)).2
    | con k bs => exact (bothWays_scheme same stricter sharedA sharedB trivial).1
    | scheme q' ws b =>
      rcases bothAllowed sharedA.left.follows.1 sharedB.left.follows.1 with
        ⟨rfl, rfl⟩ | ⟨mixed, coversA, coversB⟩
      · exact bothWays_schemes same turned stricter sharedA sharedB differ differ'
      · exact bothWays_mixed same turned stricter sharedA sharedB mixed coversA coversB differ
    | func ws qs t => exact (bothWays_scheme same stricter sharedA sharedB trivial).1
  | func vs ps r =>
    cases b with
    | use w => exact (bothWays_var same stricter sharedB sharedA (by simp)).2
    | con k bs => exact bothWays_unlike.2
    | scheme q ws b => exact (bothWays_scheme same stricter sharedB sharedA trivial).2
    | func ws qs t => exact bothWays_functions same turned stricter sharedA sharedB differ differ'

end Steps

private theorem reflects_meetWithin (δ : Discipline) (depth : Nat) :
    Reflects δ (meetWithin depth) (meetWithin depth) ∧
      Reflects δ (meetWithin depth) (flip (meetWithin depth)) := by
  induction depth with
  | zero => exact ⟨fun _ _ _ _ _ _ _ _ => .failed, fun _ _ _ _ _ _ _ _ => .failed⟩
  | succ depth ih =>
    obtain ⟨same, turned⟩ := ih
    exact ⟨fun π s s' a b stricter sharedA sharedB =>
        (bothWays_meetStep same turned stricter sharedA sharedB).1,
      fun π s s' a b stricter sharedA sharedB =>
        (bothWays_meetStep same turned stricter sharedA sharedB).2⟩

private theorem unifyWithin_swap {δ : Discipline} {a b : Term} (withinA : a.PlainWithin δ 0)
    (withinB : b.PlainWithin δ 0) (report : Report) {depth : Nat} {s : Session}
    (success : unifyWithin depth a b (.start .fresh report) = .ok () s) :
    ∃ s' π, unifyWithin (2 * depth) b a (.start .fresh report) = .ok () s' ∧
      Twins δ π s.typer s'.typer := by
  have stricter : Stricter δ .refl Typer.fresh Typer.fresh :=
    ⟨.refl (Problem.sane_empty _), nofun, nofun⟩
  have sharedA : a.Shared δ .refl .fresh .fresh := ⟨withinA, (Term.rename_refl a).symm ▸ withinA⟩
  have sharedB : b.Shared δ .refl .fresh .fresh := ⟨withinB, (Term.rename_refl b).symm ▸ withinB⟩
  let start := Session.start .fresh report
  have met : meetWithin depth a b start = .ok () s :=
    Deepens.result (deepens_meetWithin depth a b) success nofun
  have agrees := (reflects_meetWithin δ depth).2 .refl start start a b stricter sharedA sharedB
  rw [Term.rename_refl, Term.rename_refl, met] at agrees
  obtain ⟨s', swapped, π, onward⟩ := agrees.success
  exact ⟨s', π, Deepens.result (deepens_unifyWithin_double depth b a) swapped nofun, onward.twins⟩

/-- Two terms whose quantifiers are all universal, or all stand in rows with the universal ones first
and a solid term below, unify in one order just if they unify in the other, to any depth that
suffices, and then both orders teach the same up to the names that were made. In particular, if one
order succeeds, the other does not clash. -/
theorem unify_order_independent (δ : Discipline) {a b : Term} (plainA : a.Plain) (plainB : b.Plain)
    (followsA : a.Follows δ) (followsB : b.Follows δ)
    (givenA : ∀ v ∈ a.freeVars, ¬v.MadeUp) (givenB : ∀ v ∈ b.freeVars, ¬v.MadeUp)
    (report : Report) :
    (∀ depth s, unifyWithin depth a b (.start .fresh report) = .ok () s →
      ∃ s' π, unifyWithin (2 * depth) b a (.start .fresh report) = .ok () s' ∧
        Twins δ π s.typer s'.typer) ∧
    ((∃ depth s, unifyWithin depth a b (.start .fresh report) = .ok () s) ↔
      ∃ depth s, unifyWithin depth b a (.start .fresh report) = .ok () s) ∧
    ∀ s clash s', unify a b (.start .fresh report) = .ok () s →
      unify b a (.start .fresh report) ≠ .error (.clash clash) s' := by
  have withinA : a.PlainWithin δ 0 :=
    ⟨plainA, followsA, fun v free => TypeVar.older_of_not_madeUp (givenA v free) 0⟩
  have withinB : b.PlainWithin δ 0 :=
    ⟨plainB, followsB, fun v free => TypeVar.older_of_not_madeUp (givenB v free) 0⟩
  refine ⟨fun depth s => unifyWithin_swap withinA withinB report, ⟨?_, ?_⟩, ?_⟩
  · rintro ⟨depth, s, success⟩
    obtain ⟨s', -, swapped, -⟩ := unifyWithin_swap withinA withinB report success
    exact ⟨_, s', swapped⟩
  · rintro ⟨depth, s, success⟩
    obtain ⟨s', -, swapped, -⟩ := unifyWithin_swap withinB withinA report success
    exact ⟨_, s', swapped⟩
  · intro s clash s' success clashed
    obtain ⟨s'', -, swapped, -⟩ := unifyWithin_swap withinA withinB report success
    let depth := 2 * (Session.start .fresh report).typer.depthFor a b
    let depth' := (Session.start .fresh report).typer.depthFor b a
    have one := Deepens.result (deepens_unifyWithin (le_max_left depth depth') b a) swapped nofun
    have two := Deepens.result (deepens_unifyWithin (le_max_right depth depth') b a) clashed nofun
    rw [one] at two
    cases two

/-- Rows of quantifiers of both kinds beside functions, one of them with a type parameter. One order
succeeds, so the other does, at twice the depth. -/
theorem unify_order_independent_schemes :
    let δ : Discipline := .universalFirst
    let w : TypeVar := ⟨"w"⟩
    let x : TypeVar := ⟨"x"⟩
    let y : TypeVar := ⟨"y"⟩
    let u : TypeVar := ⟨"u"⟩
    let t : TypeVar := ⟨"t"⟩
    let z : TypeVar := ⟨"z"⟩
    let int : Term := .named "int"
    let pair (t u : Term) : Term := .con "pair" [t, u]
    let a := pair (.scheme .some [w] (.scheme .some [x] (pair (.use w) (.use x))))
      (.func [t] [.use t] (.use z))
    let b := pair (.scheme .every [y] (.scheme .some [u] (pair (.use y) (pair (.use u) (.use z)))))
      (.func [] [.con "list" [int]] int)
    let start := Session.start .fresh .quiet
    a.Plain ∧ b.Plain ∧ a.Follows δ ∧ b.Follows δ ∧
      (∀ v ∈ a.freeVars, ¬v.MadeUp) ∧ (∀ v ∈ b.freeVars, ¬v.MadeUp) ∧
      Typer.succeeded (unifyWithin 7 a b start) = true ∧
      ∃ s' π, unifyWithin 14 b a start = .ok () s' ∧
        Twins δ π (remains (unifyWithin 7 a b start)).typer s'.typer := by
  intro δ w x y u t z int pair a b start
  have given {v : TypeVar} (known : v = w ∨ v = x ∨ v = y ∨ v = u ∨ v = t ∨ v = z) : ¬v.MadeUp := by
    refine TypeVar.not_madeUp_of_belongsTo fun family => ?_
    rcases known with rfl | rfl | rfl | rfl | rfl | rfl <;> cases family <;> decide
  have solid (t u : Term) : (pair t u).Solid := .bare (by decide : "pair" ≠ Term.nullableHead)
  have plainA : a.Plain := by
    simp [a, pair, Term.Plain, Term.Throughout, Term.ThroughoutAll, Term.binder, given]
  have plainB : b.Plain := by
    simp [b, pair, int, Term.Plain, Term.Throughout, Term.ThroughoutAll, Term.binder, given]
  have followsA : a.Follows δ := by
    refine Term.follows_con.mpr (List.forall_mem_cons.mpr ⟨⟨?_, .solid (solid ..), ?_⟩, ?_⟩)
    · exact .scheme (fun _ => rfl) (List.mem_singleton_self w) (by decide)
    · simp [pair, Term.Throughout, Term.ThroughoutAll, Discipline.Allows]
    · simp [Term.Follows, Term.Throughout, Term.ThroughoutAll, Discipline.Allows]
  have followsB : b.Follows δ := by
    refine Term.follows_con.mpr (List.forall_mem_cons.mpr ⟨⟨?_, .solid (solid ..), ?_⟩, ?_⟩)
    · exact .scheme (by simp) (List.mem_singleton_self y) (by decide)
    · simp [pair, Term.Throughout, Term.ThroughoutAll, Discipline.Allows]
    · simp [int, Term.Follows, Term.Throughout, Term.ThroughoutAll, Discipline.Allows]
  have givenA : ∀ v ∈ a.freeVars, ¬v.MadeUp := fun v free =>
    given (by revert v; decide)
  have givenB : ∀ v ∈ b.freeVars, ¬v.MadeUp := fun v free =>
    given (by revert v; decide)
  have success : Typer.succeeded (unifyWithin 7 a b start) = true := by decide +kernel
  obtain ⟨swap, -⟩ :=
    unify_order_independent δ plainA plainB followsA followsB givenA givenB .quiet
  refine ⟨plainA, plainB, followsA, followsB, givenA, givenB, success, ?_⟩
  cases ran : unifyWithin 7 a b start with
  | ok _ s => exact swap 7 s ran
  | error failure s =>
    rw [ran] at success
    cases success

def failure? : EStateM.Result UnifyFailure Session Unit → Option UnifyFailure
  | .ok _ _ => none
  | .error failure _ => some failure

/-- With an existential quantifier over a universal one the order matters. Either the universal
scheme beside it is opened first, and then nothing is rigid; or the existential quantifier is opened
first, two universal schemes meet, and the variables of either are rigid for the other. -/
theorem unify_order_dependent :
    let x : TypeVar := ⟨"x"⟩
    let y : TypeVar := ⟨"y"⟩
    let w : TypeVar := ⟨"w"⟩
    let int : Term := .named "int"
    let pair (t u : Term) : Term := .con "pair" [t, u]
    let a : Term := .scheme .every [x] (pair (.use x) int)
    let b : Term := .scheme .some [w] (.scheme .every [y] (pair (.use y) (.use y)))
    a.WellFormed ∧ b.WellFormed ∧ a.freeVars = [] ∧ b.freeVars = [] ∧
      failure? (unify a b (.start .fresh .quiet)) = none ∧
      failure? (unify b a (.start .fresh .quiet)) =
        some (.clash ⟨.rigid, .use (numbered .existential 3), int⟩) := by
  intro x y w int pair a b
  refine ⟨?_, ?_, by decide, by decide, by decide +kernel, by decide +kernel⟩
  · simp [a, pair, int, Term.WellFormed, Term.WellFormedAll, Term.WellFormedHere, Term.nullableHead]
  · simp [b, pair, Term.WellFormed, Term.WellFormedAll, Term.WellFormedHere, Term.nullableHead]

end Typing

end TypedCalls
