import TypedCalls.Proofs.Classes.History
import TypedCalls.Proofs.Term.Discipline
import TypedCalls.Proofs.Typer.Lessons

/-!
Typers that know the same under different made-up names.

Twins have the same bindings, the same equalities among unbound variables and the same mentioned
variables, up to a renaming. Bound variables need not have been joined in the same way: a variable
that is bound to a term and one that is joined to a variable with that binding look alike. All that
unification asks of a typer has the same answer in its twin.
-/

set_option autoImplicit false

namespace TypedCalls

open Classes (LeadsTo Tidy)
open Problem (Sane)
open TypeVar (Older MadeUp numbered)

/-! Fresh names by their place. -/

namespace Typer

theorem exists_index_freshFor (family : Family) {vars : List TypeVar} {v : TypeVar}
    (member : v ∈ vars) : ∃ i < vars.length, ∀ typer : Typer,
      Term.Mapping.get? (typer.freshFor family vars).1 v =
        some (.use (numbered family (typer.counter + 1 + i))) := by
  induction vars with
  | nil => cases member
  | cons w vars ih =>
    by_cases later : v ∈ vars
    · obtain ⟨i, below, found⟩ := ih later
      refine ⟨i + 1, by simpa using below, fun typer => ?_⟩
      rw [freshFor, Term.Mapping.get?, found]
      simp only [freshVar]
      congr 3
      omega
    · have here : v = w := (List.mem_cons.mp member).resolve_right later
      refine ⟨0, by simp, fun typer => ?_⟩
      rw [freshFor, Term.Mapping.get?, get?_freshFor_of_not_mem _ _ later]
      simp [here, freshVar]

theorem mem_freshFor_freeVars (typer : Typer) (family : Family) {vars : List TypeVar}
    {x : TypeVar} :
    (x ∈ (typer.freshFor family vars).1.flatMap fun entry => entry.2.freeVars) ↔
      ∃ i < vars.length, x = numbered family (typer.counter + 1 + i) := by
  induction vars generalizing typer with
  | nil => simp [freshFor]
  | cons w vars ih =>
    rw [freshFor, List.flatMap_cons, List.mem_append, ih]
    simp only [freshVar, Term.freeVars, List.mem_singleton, List.length_cons]
    constructor
    · rintro (rfl | ⟨i, below, rfl⟩)
      · exact ⟨0, by omega, rfl⟩
      · exact ⟨i + 1, by omega, by congr 1; omega⟩
    · rintro ⟨i, below, rfl⟩
      cases i with
      | zero => exact .inl rfl
      | succ i => exact .inr ⟨i, by omega, by congr 1; omega⟩

theorem exists_opening_eq_use (typer : Typer) (family : Family) (vars : List TypeVar)
    (v : TypeVar) : ∃ w, typer.opening family vars v = .use w := by
  by_cases member : v ∈ vars
  · obtain ⟨n, -, -, opens⟩ := typer.opening_of_mem family member
    exact ⟨_, opens⟩
  · exact ⟨v, typer.opening_of_not_mem family member⟩

theorem older_subst_freshFor (typer : Typer) (family : Family) {vars : List TypeVar} {t : Term}
    (given : ∀ v ∈ vars, ¬v.MadeUp) (older : ∀ v ∈ t.freeVars, v ∉ vars → Older typer.counter v) :
    ∀ w ∈ (t.subst (typer.freshFor family vars).1).freeVars,
      Older (typer.counter + vars.length) w := by
  intro w free
  rw [typer.subst_freshFor family given] at free
  obtain ⟨v, own, image⟩ := Term.exists_mem_freeVars_of_fill free
  by_cases member : v ∈ vars
  · obtain ⟨n, -, upper, opens⟩ := typer.opening_of_mem family member
    rw [opens, Term.freeVars, List.mem_singleton] at image
    exact image ▸ TypeVar.older_numbered family upper
  · rw [typer.opening_of_not_mem family member, Term.freeVars, List.mem_singleton] at image
    exact image ▸ (older v own member).mono (Nat.le_add_right _ _)

theorem exists_new_of_mem (typer : Typer) (family : Family) {vars : List TypeVar} {t : Term}
    (given : ∀ v ∈ vars, ¬v.MadeUp) (plain : t.Plain) {v : TypeVar} (bound : v ∈ vars)
    (free : v ∈ t.freeVars) :
    ∃ w ∈ (t.subst (typer.freshFor family vars).1).freeVars, ¬Older typer.counter w := by
  obtain ⟨above, place⟩ := Term.mem_freeVars_iff_places.mp free
  obtain ⟨n, lower, -, opens⟩ := typer.opening_of_mem family bound
  refine ⟨numbered family n, ?_, TypeVar.not_older_numbered family lower⟩
  rw [typer.subst_freshFor family given, Term.fill, Term.freeVars_replace, List.mem_flatMap]
  refine ⟨(v, above), place, ?_⟩
  rw [Term.surfacing, if_neg List.not_mem_nil, Option.getD_some, opens]
  refine List.mem_filter.mpr ⟨List.mem_singleton_self _, decide_eq_true fun hidden => ?_⟩
  exact plain.given_of_place place _ hidden ⟨family, n, rfl⟩

end Typer

/-- What is asked of terms here: they are plain and follow a discipline, and their made-up variables
were given out. -/
structure Term.PlainWithin (δ : Discipline) (c : Nat) (t : Term) : Prop where
  plain : t.Plain
  follows : t.Follows δ
  older : ∀ v ∈ t.freeVars, Older c v

namespace Term.PlainWithin

variable {δ : Discipline}

theorem mono {c d : Nat} {t : Term} (within : t.PlainWithin δ c) (le : c ≤ d) : t.PlainWithin δ d :=
  ⟨within.plain, within.follows, fun v free => (within.older v free).mono le⟩

theorem opened (typer : Typer) (family : Family) {vars : List TypeVar} {t : Term}
    (given : ∀ v ∈ vars, ¬v.MadeUp) (plain : t.Plain) (follows : t.Follows δ)
    (older : ∀ v ∈ t.freeVars, v ∉ vars → Older typer.counter v) :
    (t.subst (typer.freshFor family vars).1).PlainWithin δ
      (typer.freshFor family vars).2.counter := by
  refine ⟨?_, ?_, ?_⟩
  · rw [typer.subst_freshFor family given]
    refine plain.fill fun v _ => ?_
    obtain ⟨w, opens⟩ := typer.exists_opening_eq_use family vars v
    rw [opens]
    exact Term.plain_use w
  · rw [typer.subst_freshFor family given]
    exact follows.fill (typer.exists_opening_eq_use family vars)
  · rw [Typer.freshFor_snd]
    exact typer.older_subst_freshFor family given older

end Term.PlainWithin

/-- Plain terms are compared by plain terms. -/
def Requirement.plain (δ : Discipline) : Requirement where
  Fit c t := t.PlainWithin δ c
  fit_mono le within := within.mono le
  fit_arg within a member := ⟨Term.plain_con.mp within.plain a member,
    Term.follows_con.mp within.follows a member, fun v free =>
      within.older v (Term.mem_freeVars_con.mpr ⟨a, member, free⟩)⟩
  fit_scheme typer family _ _ _ within :=
    .opened typer family within.plain.1 within.plain.2 within.follows.2 fun v free unbound =>
      within.older v (Term.mem_freeVars_scheme.mpr ⟨free, unbound⟩)
  fit_func typer _ _ _ within t member := by
    obtain ⟨given, parts⟩ := Term.plain_func.mp within.plain
    have follows := Term.follows_func.mp within.follows t member
    exact .opened typer .unification given (parts t member) follows fun v free unbound =>
      within.older v (Term.mem_freeVars_func_iff.mpr ⟨⟨t, member, free⟩, unbound⟩)

def Contract.plain (δ : Discipline) : Contract := (Requirement.plain δ).contract

namespace Classes

variable {s : Classes}

theorem mem_mentioned_of_bound {v : TypeVar} {t : Term} (bound : s.bound? v = some t) :
    v ∈ s.mentioned := by
  obtain ⟨c, found⟩ := exists_classOf?_of_bound? bound
  exact (classOf?_isSome_iff s v).mp (by rw [found]; rfl)

theorem bound?_eq_none_of_not_mem {v : TypeVar} (missing : v ∉ s.mentioned) :
    s.bound? v = none :=
  Option.eq_none_iff_forall_ne_some.mpr fun _ bound => missing (mem_mentioned_of_bound bound)

private theorem same_iff_of_not_mem {v : TypeVar} (missing : v ∉ s.mentioned) (w : TypeVar) :
    s.same v w = true ↔ v = w := by
  rw [same_iff]
  refine or_iff_left ?_
  rintro ⟨c, found, -⟩
  exact missing ((classOf?_isSome_iff s v).mp (by rw [found]; rfl))

end Classes

/-- The typers know the same up to a renaming. -/
structure Typer.Twins (δ : Discipline) (π : Renaming) (σ τ : Typer) : Prop where
  left : σ.Sound (.plain δ)
  right : τ.Sound (.plain δ)
  bound : ∀ v, τ.classes.bound? (π v) = (σ.classes.bound? v).map (Term.rename π)
  same : ∀ v w, σ.classes.bound? v = none → σ.classes.bound? w = none →
    τ.classes.same (π v) (π w) = σ.classes.same v w
  mentioned : ∀ v, π v ∈ τ.classes.mentioned ↔ v ∈ σ.classes.mentioned

namespace Typer.Twins

variable {δ : Discipline} {π ρ : Renaming} {σ τ υ : Typer}

theorem refl (sound : σ.Sound (.plain δ)) : Twins δ .refl σ σ where
  left := sound
  right := sound
  bound v := by
    rw [Renaming.refl_apply]
    cases σ.classes.bound? v with
    | none => rfl
    | some t => exact congrArg some (Term.rename_refl t).symm
  same _ _ _ _ := rfl
  mentioned _ := Iff.rfl

theorem unbound_iff (twins : Twins δ π σ τ) (v : TypeVar) :
    τ.classes.bound? (π v) = none ↔ σ.classes.bound? v = none := by
  rw [twins.bound, Option.map_eq_none_iff]

theorem symm (twins : Twins δ π σ τ) : Twins δ π.symm τ σ where
  left := twins.right
  right := twins.left
  bound v := by
    have bound := twins.bound (π.symm v)
    rw [π.apply_symm] at bound
    rw [bound]
    cases σ.classes.bound? (π.symm v) with
    | none => rfl
    | some t => exact congrArg some (Term.rename_symm π t).symm
  same v w unboundV unboundW := by
    have same := twins.same (π.symm v) (π.symm w)
    rw [← twins.unbound_iff, ← twins.unbound_iff, π.apply_symm, π.apply_symm] at same
    exact (same unboundV unboundW).symm
  mentioned v := by rw [← twins.mentioned, π.apply_symm]

theorem trans (first : Twins δ π σ τ) (second : Twins δ ρ τ υ) : Twins δ (π.trans ρ) σ υ where
  left := first.left
  right := second.right
  bound v := by
    rw [Renaming.trans_apply, second.bound, first.bound, Option.map_map]
    congr 1
    exact funext fun t => Term.rename_rename π ρ t
  same v w unboundV unboundW := by
    rw [Renaming.trans_apply, Renaming.trans_apply, second.same _ _
      ((first.unbound_iff v).mpr unboundV) ((first.unbound_iff w).mpr unboundW),
      first.same v w unboundV unboundW]
  mentioned v := by rw [Renaming.trans_apply, second.mentioned, first.mentioned]

theorem later (twins : Twins δ π σ τ) {c d : Nat} (le : σ.counter ≤ c) (le' : τ.counter ≤ d)
    (rigid rigid' : List TypeVar) :
    Twins δ π { σ with counter := c, rigid } { τ with counter := d, rigid := rigid' } where
  left := Sane.mono twins.left fun _ within => within.mono le
  right := Sane.mono twins.right fun _ within => within.mono le'
  bound := twins.bound
  same := twins.same
  mentioned := twins.mentioned

theorem older_of_mem (twins : Twins δ π σ τ) {v : TypeVar} (member : v ∈ σ.classes.mentioned) :
    Older σ.counter v ∧ Older τ.counter (π v) :=
  ⟨(twins.left.mentioned member).older v (List.mem_singleton_self v),
    (twins.right.mentioned ((twins.mentioned v).mpr member)).older _ (List.mem_singleton_self _)⟩

end Typer.Twins

/-- Both typers may compare the term, under their names for its variables. -/
structure Term.Shared (δ : Discipline) (π : Renaming) (σ τ : Typer) (t : Term) : Prop where
  left : t.PlainWithin δ σ.counter
  right : (t.rename π).PlainWithin δ τ.counter

namespace Term.Shared

variable {δ : Discipline} {π ρ : Renaming} {σ τ σ' τ' : Typer} {t : Term}

theorem older (shared : t.Shared δ π σ τ) {v : TypeVar} (free : v ∈ t.freeVars) :
    Older σ.counter v ∧ Older τ.counter (π v) := by
  refine ⟨shared.left.older v free, shared.right.older _ ?_⟩
  rw [shared.left.plain.freeVars_rename]
  exact List.mem_map_of_mem free

theorem rename_eq (shared : t.Shared δ π σ τ)
    (agree : ∀ v, Older σ.counter v → Older τ.counter (π v) → ρ v = π v) :
    t.rename ρ = t.rename π :=
  shared.left.plain.rename_congr fun v free => agree v (shared.older free).1 (shared.older free).2

theorem later (shared : t.Shared δ π σ τ)
    (agree : ∀ v, Older σ.counter v → Older τ.counter (π v) → ρ v = π v)
    (le : σ.counter ≤ σ'.counter) (le' : τ.counter ≤ τ'.counter) : t.Shared δ ρ σ' τ' :=
  ⟨shared.left.mono le, shared.rename_eq agree ▸ shared.right.mono le'⟩

theorem argument {head : String} {args : List Term} (shared : (con head args).Shared δ π σ τ) :
    ∀ a ∈ args, a.Shared δ π σ τ := by
  intro a member
  have renamed := shared.right
  rw [rename_con] at renamed
  exact ⟨(Contract.plain δ).fit_arg shared.left a member,
    (Contract.plain δ).fit_arg renamed _ (List.mem_map_of_mem member)⟩

end Term.Shared

namespace Typer.Twins

variable {δ : Discipline} {π ρ : Renaming} {σ τ : Typer}

theorem bound_some (twins : Twins δ π σ τ) {v : TypeVar} {t : Term}
    (bound : σ.classes.bound? v = some t) : τ.classes.bound? (π v) = some (t.rename π) := by
  rw [twins.bound, bound]
  rfl

theorem shared_of_bound (twins : Twins δ π σ τ) {v : TypeVar} {t : Term}
    (bound : σ.classes.bound? v = some t) : t.Shared δ π σ τ :=
  ⟨(twins.left.bound bound).1, (twins.right.bound (twins.bound_some bound)).1⟩

theorem congr (twins : Twins δ π σ τ)
    (agree : ∀ v, Older σ.counter v → Older τ.counter (π v) → ρ v = π v) : Twins δ ρ σ τ := by
  have listed : ∀ {v}, v ∈ σ.classes.mentioned → ρ v = π v := fun member =>
    agree _ (twins.older_of_mem member).1 (twins.older_of_mem member).2
  have mentioned : ∀ v, ρ v ∈ τ.classes.mentioned ↔ v ∈ σ.classes.mentioned := by
    intro v
    constructor
    · intro member
      have origin : π.symm (ρ v) ∈ σ.classes.mentioned := by
        rwa [← twins.mentioned, π.apply_symm]
      have equal := listed origin
      rw [π.apply_symm, ρ.apply_inj] at equal
      rwa [← equal]
    · intro member
      rw [listed member]
      exact (twins.mentioned v).mpr member
  refine ⟨twins.left, twins.right, fun v => ?_, fun v w unboundV unboundW => ?_, mentioned⟩
  · by_cases member : v ∈ σ.classes.mentioned
    · rw [listed member, twins.bound]
      cases bound : σ.classes.bound? v with
      | none => rfl
      | some t =>
        exact congrArg some ((twins.shared_of_bound bound).rename_eq agree).symm
    · rw [Classes.bound?_eq_none_of_not_mem member,
        Classes.bound?_eq_none_of_not_mem (mt (mentioned v).mp member)]
      rfl
  · have apart : ∀ {x y}, x ∉ σ.classes.mentioned →
        τ.classes.same (ρ x) (ρ y) = σ.classes.same x y := by
      intro x y missing
      rw [Bool.eq_iff_iff, Classes.same_iff_of_not_mem missing,
        Classes.same_iff_of_not_mem (mt (mentioned x).mp missing), ρ.apply_inj]
    have swap : ∀ (s : Classes) x y, s.same x y = s.same y x := fun s x y =>
      Bool.eq_iff_iff.mpr ⟨Classes.same_symm, Classes.same_symm⟩
    by_cases memberV : v ∈ σ.classes.mentioned
    · by_cases memberW : w ∈ σ.classes.mentioned
      · rw [listed memberV, listed memberW, twins.same v w unboundV unboundW]
      · rw [swap, apart memberW, swap]
    · exact apart memberV

/-! What unification asks of twins. -/

private theorem leadsTo (twins : Twins δ π σ τ) {y v : TypeVar}
    (unbound : σ.classes.bound? v = none)
    (leads : LeadsTo σ.classes y v) : LeadsTo τ.classes (π y) (π v) := by
  induction leads with
  | @same y v equal =>
    refine .same ?_
    rw [twins.same y v ((Classes.bound?_of_same equal).trans unbound) unbound, equal]
  | @through x y z t bound free _ ih =>
    refine .through (twins.bound_some bound) ?_ (ih unbound)
    rw [(twins.shared_of_bound bound).left.plain.freeVars_rename]
    exact List.mem_map_of_mem free

private theorem leadsTo_iff (twins : Twins δ π σ τ) {y v : TypeVar}
    (unbound : σ.classes.bound? v = none) :
    LeadsTo τ.classes (π y) (π v) ↔ LeadsTo σ.classes y v := by
  refine ⟨fun leads => ?_, twins.leadsTo unbound⟩
  have back := twins.symm.leadsTo ((twins.unbound_iff v).mpr unbound) leads
  rwa [π.symm_apply, π.symm_apply] at back

theorem occurs (twins : Twins δ π σ τ) {v : TypeVar} (unbound : σ.classes.bound? v = none) {t : Term}
    (plain : t.Plain) : τ.classes.occurs (π v) (t.rename π) = σ.classes.occurs v t := by
  rw [Bool.eq_iff_iff, Classes.occurs_iff twins.left.tidy twins.left.acyclic,
    Classes.occurs_iff twins.right.tidy twins.right.acyclic, plain.freeVars_rename]
  constructor
  · rintro ⟨_, member, leads⟩
    obtain ⟨y, free, rfl⟩ := List.mem_map.mp member
    exact ⟨y, free, (twins.leadsTo_iff unbound).mp leads⟩
  · rintro ⟨y, free, leads⟩
    exact ⟨π y, List.mem_map_of_mem free, (twins.leadsTo_iff unbound).mpr leads⟩

private theorem reading (twins : Twins δ π σ τ) (v : TypeVar) :
    τ.classes.reading (π v) = (σ.classes.reading v).rename π := by
  revert v
  refine twins.left.acyclic.induction (fun v unbound => ?_) (fun v t bound ih => ?_)
  · rw [Classes.reading_of_unbound unbound,
      Classes.reading_of_unbound ((twins.unbound_iff v).mpr unbound), Term.rename]
  · rw [Classes.reading_of_bound twins.left.tidy twins.left.acyclic bound,
      Classes.reading_of_bound twins.right.tidy twins.right.acyclic (twins.bound_some bound)]
    have plain := (twins.shared_of_bound bound).left.plain
    exact (plain.rename_fill fun w free => (ih w free).symm).symm

end Typer.Twins

/-! What both learn. -/

namespace Classes

variable {s s' : Classes} {v w : TypeVar} {t : Term}

/-- A variable that was unbound has come to stand for a term. -/
structure Settles (v : TypeVar) (t : Term) (s s' : Classes) : Prop where
  bound : ∀ x, s'.bound? x = if s.same x v = true then some t else s.bound? x
  same : ∀ x y, s'.bound? x = none → s'.bound? y = none → s'.same x y = s.same x y
  mentioned : ∀ x, x ∈ s'.mentioned ↔ x ∈ s.mentioned ∨ x = v

theorem settles_set (tidy : Tidy s) (v : TypeVar) (t : Term) :
    Settles v t s (s.set v (some t)) := by
  obtain ⟨-, same, bounds, mention⟩ := set_spec tidy v (some t)
  exact ⟨bounds, fun x y _ _ => same x y, mention⟩

theorem settles_join (tidy : Tidy s) (unbound : s.bound? v = none) (bound : s.bound? w = some t) :
    Settles v t s (s.join v w) := by
  obtain ⟨-, same, bounds, mention⟩ := join_spec tidy w unbound
  have settled : ∀ x, (s.join v w).bound? x = if s.same x v = true then some t else s.bound? x := by
    intro x
    rw [bounds]
    by_cases here : s.same x v = true
    · rw [if_pos (.inl here), if_pos here, bound]
    · rw [if_neg here]
      by_cases there : s.same x w = true
      · rw [if_pos (.inr there), bound?_of_same there]
      · rw [if_neg (not_or.mpr ⟨here, there⟩)]
  refine ⟨settled, fun x y openX openY => ?_, fun x => ?_⟩
  · have away : ∀ {z}, (s.join v w).bound? z = none →
        ¬s.same z v = true ∧ ¬s.same z w = true := by
      intro z openZ
      refine not_or.mp fun joined => ?_
      rw [bounds, if_pos joined, bound] at openZ
      cases openZ
    rw [Bool.eq_iff_iff, same]
    refine or_iff_left ?_
    rintro (⟨here, -⟩ | ⟨here, -⟩)
    · exact (away openX).1 here
    · exact (away openX).2 here
  · rw [mention]
    refine ⟨?_, Or.imp_right .inl⟩
    rintro (old | rfl | rfl)
    · exact .inl old
    · exact .inr rfl
    · exact .inl (mem_mentioned_of_bound bound)

/-- Two unbound variables have become the same. -/
structure Merges (v w : TypeVar) (s s' : Classes) : Prop where
  bound : ∀ x, s'.bound? x = s.bound? x
  same : ∀ x y, s'.same x y = true ↔ s.same x y = true ∨
    (s.same x v = true ∧ s.same y w = true) ∨ (s.same x w = true ∧ s.same y v = true)
  mentioned : ∀ x, x ∈ s'.mentioned ↔ x ∈ s.mentioned ∨ x = v ∨ x = w

theorem merges_join (tidy : Tidy s) (unbound : s.bound? v = none) (unbound' : s.bound? w = none) :
    Merges v w s (s.join v w) := by
  obtain ⟨-, same, bounds, mention⟩ := join_spec tidy w unbound
  refine ⟨fun x => ?_, same, mention⟩
  rw [bounds]
  split
  · next joined =>
    rcases joined with here | here
    · rw [bound?_of_same here, unbound, unbound']
    · rw [bound?_of_same here]
  · rfl

theorem Merges.swap (merges : Merges v w s s') : Merges w v s s' where
  bound := merges.bound
  same x y := by rw [merges.same, or_comm (a := _ ∧ _)]
  mentioned x := by rw [merges.mentioned, or_comm (a := x = v)]

end Classes

namespace Typer.Twins

open Classes (Settles Merges)

variable {δ : Discipline} {π : Renaming} {σ τ σ' τ' : Typer} {v w : TypeVar}

theorem settle (twins : Twins δ π σ τ) (left : σ'.Sound (.plain δ)) (right : τ'.Sound (.plain δ))
    (unbound : σ.classes.bound? v = none) {t : Term} (settles : Settles v t σ.classes σ'.classes)
    (settles' : Settles (π v) (t.rename π) τ.classes τ'.classes) : Twins δ π σ' τ' := by
  have unbound' := (twins.unbound_iff v).mpr unbound
  have same : ∀ x, τ.classes.same (π x) (π v) = σ.classes.same x v := by
    intro x
    cases bound : σ.classes.bound? x with
    | none => exact twins.same x v bound unbound
    | some u =>
      have apart : ¬σ.classes.same x v = true := fun here => by
        rw [Classes.bound?_of_same here, unbound] at bound
        cases bound
      have apart' : ¬τ.classes.same (π x) (π v) = true := fun here => by
        have bound' := twins.bound_some bound
        rw [Classes.bound?_of_same here, unbound'] at bound'
        cases bound'
      rw [Bool.eq_false_iff.mpr apart, Bool.eq_false_iff.mpr apart']
  have bound : ∀ x, τ'.classes.bound? (π x) = (σ'.classes.bound? x).map (Term.rename π) := by
    intro x
    rw [settles'.bound, settles.bound, same, twins.bound]
    split
    · rfl
    · rfl
  have before : ∀ {x}, σ'.classes.bound? x = none → σ.classes.bound? x = none := by
    intro x openX
    rw [settles.bound] at openX
    split at openX
    · cases openX
    · exact openX
  refine ⟨left, right, bound, fun x y openX openY => ?_, fun x => ?_⟩
  · have openX' : τ'.classes.bound? (π x) = none := by rw [bound, openX]; rfl
    have openY' : τ'.classes.bound? (π y) = none := by rw [bound, openY]; rfl
    rw [settles.same x y openX openY, settles'.same _ _ openX' openY',
      twins.same x y (before openX) (before openY)]
  · rw [settles.mentioned, settles'.mentioned, twins.mentioned, π.apply_inj]

theorem merge (twins : Twins δ π σ τ) (left : σ'.Sound (.plain δ)) (right : τ'.Sound (.plain δ))
    (unbound : σ.classes.bound? v = none) (unbound' : σ.classes.bound? w = none)
    (merges : Merges v w σ.classes σ'.classes)
    (merges' : Merges (π v) (π w) τ.classes τ'.classes) : Twins δ π σ' τ' where
  left := left
  right := right
  bound x := by rw [merges'.bound, merges.bound, twins.bound]
  same x y openX openY := by
    rw [merges.bound] at openX openY
    rw [Bool.eq_iff_iff, merges'.same, merges.same, twins.same x y openX openY,
      twins.same x v openX unbound, twins.same y w openY unbound',
      twins.same x w openX unbound', twins.same y v openY unbound]
  mentioned x := by
    rw [merges.mentioned, merges'.mentioned, twins.mentioned, π.apply_inj, π.apply_inj]

end Typer.Twins

/-! Rigid variables. -/

/-- Twins of which the first has all the rigid variables of the second, and perhaps more. -/
structure Typer.Stricter (δ : Discipline) (π : Renaming) (σ τ : Typer) : Prop
    extends Twins δ π σ τ where
  unbound : ∀ r ∈ σ.rigid, σ.classes.bound? r = none
  rigid : ∀ r ∈ τ.rigid, ∃ u ∈ σ.rigid, π u = r ∧ Older σ.counter u ∧ Older τ.counter r

namespace Typer.Stricter

variable {δ : Discipline} {π : Renaming} {σ τ : Typer}

theorem isRigid (stricter : Stricter δ π σ τ) {v : TypeVar} (unbound : σ.classes.bound? v = none)
    (isRigid : τ.isRigid (π v) = true) : σ.isRigid v = true := by
  obtain ⟨r, member, equal⟩ := List.any_eq_true.mp isRigid
  obtain ⟨u, member', rfl, -⟩ := stricter.rigid r member
  refine List.any_eq_true.mpr ⟨u, member', ?_⟩
  rwa [← stricter.same v u unbound (stricter.unbound u member')]

end Typer.Stricter

/-! What can be seen from outside. -/

private theorem Classes.mem_flatMap_listing_freeVars {s : Classes} (tidy : Tidy s) {w : TypeVar} :
    (w ∈ s.listing.flatMap fun c => c.1 ++ (c.2.map Term.freeVars).getD []) ↔
      w ∈ s.mentioned ∨ ∃ x t, s.bound? x = some t ∧ w ∈ t.freeVars := by
  rw [← mem_flatMap_listing tidy]
  simp only [List.mem_flatMap, List.mem_append]
  constructor
  · rintro ⟨c, member, here | there⟩
    · exact .inl ⟨c, member, here⟩
    · rw [listing_eq, List.mem_filterMap] at member
      obtain ⟨k, -, shown⟩ := member
      split at shown
      · cases shown
      · next peopled =>
        cases shown
        obtain ⟨x, inside⟩ := List.exists_mem_of_ne_nil _ peopled
        have found := (mem_group tidy).mp inside
        cases bound : s.boundAt k with
        | none =>
          rw [bound] at there
          cases there
        | some t =>
          rw [bound] at there
          exact .inr ⟨x, t, by rw [bound?_eq_bind, found, Option.bind_some, bound], there⟩
  · rintro (⟨c, member, here⟩ | ⟨x, t, bound, free⟩)
    · exact ⟨c, member, .inl here⟩
    · obtain ⟨k, found⟩ := exists_classOf?_of_bound? bound
      have inside := (mem_group tidy).mpr found
      have boundAt : s.boundAt k = some t := by
        rw [← bound, bound?_eq_bind, found, Option.bind_some]
      refine ⟨(s.group k, s.boundAt k), ?_, .inr ?_⟩
      · rw [listing_eq, List.mem_filterMap]
        exact ⟨k, List.mem_range.mpr (tidy.classOf?_lt found), if_neg (List.ne_nil_of_mem inside)⟩
      · rw [boundAt]
        exact free

namespace Typer

theorem mem_visible {typer : Typer} (tidy : Tidy typer.classes) {a b : Term} {w : TypeVar} :
    w ∈ typer.visible a b ↔ w ∈ a.freeVars ∨ w ∈ b.freeVars ∨ w ∈ typer.classes.mentioned ∨
      ∃ x t, typer.classes.bound? x = some t ∧ w ∈ t.freeVars := by
  rw [visible, List.mem_append, List.mem_append, Classes.mem_flatMap_listing_freeVars tidy, or_assoc]

namespace Twins

variable {δ : Discipline} {π : Renaming} {σ τ : Typer}

theorem exists_visible (twins : Twins δ π σ τ) {a b : Term} (sharedA : a.Shared δ π σ τ)
    (sharedB : b.Shared δ π σ τ) {w : TypeVar}
    (seen : w ∈ τ.visible (a.rename π) (b.rename π)) :
    ∃ u ∈ σ.visible a b, π u = w ∧ Older σ.counter u ∧ Older τ.counter w := by
  have inTerm : ∀ {t : Term}, t.Shared δ π σ τ → w ∈ (t.rename π).freeVars →
      ∃ u ∈ t.freeVars, π u = w ∧ Older σ.counter u ∧ Older τ.counter w := by
    intro t shared free
    rw [shared.left.plain.freeVars_rename] at free
    obtain ⟨u, own, rfl⟩ := List.mem_map.mp free
    exact ⟨u, own, rfl, shared.older own⟩
  simp only [mem_visible twins.left.tidy]
  rcases (mem_visible twins.right.tidy).mp seen with free | free | listed | ⟨x, t, bound, free⟩
  · obtain ⟨u, own, rest⟩ := inTerm sharedA free
    exact ⟨u, .inl own, rest⟩
  · obtain ⟨u, own, rest⟩ := inTerm sharedB free
    exact ⟨u, .inr (.inl own), rest⟩
  · have origin : π.symm w ∈ σ.classes.mentioned := by rwa [← twins.mentioned, π.apply_symm]
    have older := twins.older_of_mem origin
    rw [π.apply_symm] at older
    exact ⟨π.symm w, .inr (.inr (.inl origin)), π.apply_symm w, older⟩
  · have origin := twins.bound (π.symm x)
    rw [π.apply_symm, bound] at origin
    obtain ⟨t', bound', rfl⟩ := Option.map_eq_some_iff.mp origin.symm
    obtain ⟨u, own, rest⟩ := inTerm (twins.shared_of_bound bound') free
    exact ⟨u, .inr (.inr (.inr ⟨_, t', bound', own⟩)), rest⟩

private theorem plain_reading (twins : Twins δ π σ τ) (v : TypeVar) :
    (σ.classes.reading v).Plain := by
  revert v
  refine twins.left.acyclic.induction (fun v unbound => ?_) (fun v t bound ih => ?_)
  · rw [Classes.reading_of_unbound unbound]
    exact Term.plain_use v
  · rw [Classes.reading_of_bound twins.left.tidy twins.left.acyclic bound]
    exact (twins.left.bound bound).1.plain.fill ih

theorem escapes (twins : Twins δ π σ τ) {skolems skolems' outside outside' : List TypeVar}
    (unbound : ∀ s ∈ skolems, σ.classes.bound? s = none)
    (origin : ∀ s ∈ skolems', ∃ u ∈ skolems, π u = s)
    (seen : ∀ w ∈ outside', ∃ u ∈ outside, π u = w)
    (escapes : τ.escapes skolems' outside' = true) : σ.escapes skolems outside = true := by
  simp only [Typer.escapes, List.any_eq_true] at escapes ⊢
  obtain ⟨w', member', x', inside', s', skolem', equal⟩ := escapes
  obtain ⟨w, member, rfl⟩ := seen w' member'
  obtain ⟨s, skolem, rfl⟩ := origin s' skolem'
  have inside : ∃ x ∈ w :: (σ.read (.use w)).freeVars, π x = x' := by
    rcases List.mem_cons.mp inside' with rfl | free
    · exact ⟨w, List.mem_cons_self .., rfl⟩
    · have reading : τ.read (.use (π w)) = (σ.read (.use w)).rename π := twins.reading w
      have plain : (σ.read (.use w)).Plain := twins.plain_reading w
      rw [reading, plain.freeVars_rename] at free
      obtain ⟨x, own, rfl⟩ := List.mem_map.mp free
      exact ⟨x, List.mem_cons_of_mem _ own, rfl⟩
  obtain ⟨x, inside, rfl⟩ := inside
  have openS := unbound s skolem
  have openX : σ.classes.bound? x = none := by
    rw [← twins.unbound_iff, ← Classes.bound?_of_same equal, twins.unbound_iff, openS]
  exact ⟨w, member, x, inside, s, skolem, by rwa [← twins.same s x openS openX]⟩

end Twins

/-! Names that both give out. -/

theorem rename_opened {π ρ : Renaming} (typer typer' : Typer) (family : Family)
    {vars : List TypeVar} {t : Term} (given : ∀ v ∈ vars, ¬v.MadeUp) (plain : t.Plain)
    (agree : ∀ v ∈ t.freeVars, v ∉ vars → ρ v = π v)
    (pairs : ∀ i < vars.length, ρ (numbered family (typer.counter + 1 + i)) =
      numbered family (typer'.counter + 1 + i)) :
    (t.subst (typer.freshFor family vars).1).rename ρ =
      (t.rename π).subst (typer'.freshFor family vars).1 := by
  have agree' : ∀ v ∈ t.freeVars, ρ v = π v := by
    intro v free
    by_cases bound : v ∈ vars
    · exact (ρ.given v (given v bound)).trans (π.given v (given v bound)).symm
    · exact agree v free bound
  rw [subst_freshFor _ _ given, subst_freshFor _ _ given, ← plain.rename_congr agree']
  refine plain.rename_fill fun v free => ?_
  by_cases bound : v ∈ vars
  · obtain ⟨i, below, found⟩ := exists_index_freshFor family bound
    rw [ρ.given v (given v bound), opening, opening, found, found]
    exact congrArg Term.use (pairs i below)
  · rw [opening_of_not_mem _ _ bound,
      opening_of_not_mem _ _ (mt (ρ.apply_mem_iff given v).mp bound), Term.rename]

/-- Two blocks of numbers above `c` that have none in common. -/
structure Blocks (c p n q m : Nat) : Prop where
  first : c ≤ p
  second : c ≤ q
  apart : p + n ≤ q ∨ q + m ≤ p

theorem exists_pairing (π : Renaming) (family family' : Family) {c d n m p q p' q' : Nat}
    (blocks : Blocks c p n q m) (blocks' : Blocks d p' n q' m) :
    ∃ ρ : Renaming, (∀ v, Older c v → Older d (π v) → ρ v = π v) ∧
      (∀ i < n, ρ (numbered family (p + 1 + i)) = numbered family (p' + 1 + i)) ∧
      ∀ i < m, ρ (numbered family' (q + 1 + i)) = numbered family' (q' + 1 + i) := by
  have distinct (family : Family) (k : Nat) :
      Function.Injective fun i => numbered family (k + 1 + i) := by
    intro i j equal
    have numbers := TypeVar.numbered_inj equal
    omega
  have new {family : Family} {c k : Nat} (le : c ≤ k) (i : Nat) :
      ¬Older c (numbered family (k + 1 + i)) :=
    TypeVar.not_older_numbered family (by omega)
  let known (v : TypeVar) : Prop := Older c v ∧ Older d (π v)
  obtain ⟨ρ₁, keeps₁, pairs₁⟩ := π.exists_extension known n (distinct family p) (distinct family p')
    (fun i _ => ⟨⟨_, _, rfl⟩, fun here => new blocks.first i here.1⟩)
    (fun i _ => ⟨⟨_, _, rfl⟩, fun v here equal => new blocks'.first i (equal ▸ here.2)⟩)
  let known' (v : TypeVar) : Prop := known v ∨ ∃ i < n, v = numbered family (p + 1 + i)
  have unknown : ∀ i < m, ¬known' (numbered family' (q + 1 + i)) := by
    rintro i below (here | ⟨j, below', equal⟩)
    · exact new blocks.second i here.1
    · have numbers := TypeVar.numbered_inj equal
      have apart := blocks.apart
      omega
  have missed : ∀ i < m, ∀ v, known' v → ρ₁ v ≠ numbered family' (q' + 1 + i) := by
    rintro i below v (here | ⟨j, below', rfl⟩) equal
    · rw [keeps₁ v here] at equal
      exact new blocks'.second i (equal ▸ here.2)
    · rw [pairs₁ j below'] at equal
      have numbers := TypeVar.numbered_inj equal
      have apart := blocks'.apart
      omega
  obtain ⟨ρ₂, keeps₂, pairs₂⟩ := ρ₁.exists_extension known' m (distinct family' q)
    (distinct family' q') (fun i below => ⟨⟨_, _, rfl⟩, unknown i below⟩)
    (fun i below => ⟨⟨_, _, rfl⟩, missed i below⟩)
  refine ⟨ρ₂, fun v older older' => ?_, fun i below => ?_, pairs₂⟩
  · rw [keeps₂ v (.inl ⟨older, older'⟩), keeps₁ v ⟨older, older'⟩]
  · rw [keeps₂ _ (.inr ⟨i, below, rfl⟩), pairs₁ i below]

end Typer

end TypedCalls
