import TypedCalls.Proofs.Instance.Opening

/-!
Terms and classes that know no variable made up after a certain one.

Reading stays within such terms. A substitution may be given new values at later variables without any
effect on what is known already (`satisfies_renewed`), and so a solution can be made to agree with
whatever a rule is to be applied to (`fill_specialize_renewed`). The terms are first-order, or such
that the substitution leaves their nullable markers intact.
-/

set_option autoImplicit false

namespace TypedCalls

open Problem
open Classes (Satisfies)

/-- First-order, and without variables made up after the `c`-th. -/
def Term.Within (c : Nat) (t : Term) : Prop := t.FirstOrder ∧ ∀ v ∈ t.freeVars, v.Older c

def Term.IntactWithin (θ : TypeVar → Term) (c : Nat) (t : Term) : Prop :=
  t.Intact θ ∧ ∀ v ∈ t.freeVars, v.Older c

theorem Term.Within.use {c : Nat} {v : TypeVar} : (Term.use v).Within c ↔ v.Older c := by
  simp [Within, FirstOrder, BuiltFrom, freeVars]

theorem Term.Within.intactWithin {c : Nat} {t : Term} (within : t.Within c) (θ : TypeVar → Term) :
    t.IntactWithin θ c :=
  ⟨within.1.intact θ, within.2⟩

namespace Term.IntactWithin

variable {θ θ' : TypeVar → Term} {c : Nat} {t : Term}

theorem mono {d : Nat} (within : t.IntactWithin θ c) (le : c ≤ d) : t.IntactWithin θ d :=
  ⟨within.1, fun v free => (within.2 v free).mono le⟩

private theorem use {v : TypeVar} : (Term.use v).IntactWithin θ c ↔ v.Older c := by
  simp [IntactWithin, Intact, freeVars]

private theorem fill {σ : TypeVar → Term} (intact : t.Intact fun v => (σ v).fill θ)
    (images : ∀ v ∈ t.freeVars, (σ v).IntactWithin θ c) : (t.fill σ).IntactWithin θ c := by
  refine ⟨intact_fill intact fun v free => (images v free).1, fun w free => ?_⟩
  obtain ⟨v, inside, below⟩ := (mem_freeVars_fill intact.quantifierFree).mp free
  exact (images v inside).2 w below

theorem fill_congr (within : t.IntactWithin θ c) (agree : ∀ v, v.Older c → θ' v = θ v) :
    t.fill θ' = t.fill θ :=
  Term.fill_congr fun v free => agree v (within.2 v free)

theorem congr (within : t.IntactWithin θ c) (agree : ∀ v, v.Older c → θ' v = θ v) :
    t.IntactWithin θ' c :=
  ⟨within.1.congr fun v free => agree v (within.2 v free), within.2⟩

end Term.IntactWithin

private theorem Term.mem_freeVars_of_opened {t part : Term} (free : t.QuantifierFree)
    (opened : part ∈ t.opened) {v : TypeVar} (inside : v ∈ part.freeVars) : v ∈ t.freeVars := by
  cases t with
  | con head args => exact mem_freeVars_con.mpr ⟨part, opened, inside⟩
  | use w => cases opened
  | scheme quantifier vars body => cases opened
  | func typeParams params result =>
    obtain ⟨rfl, parts⟩ := builtFrom_func.mp free
    obtain ⟨d, child, rfl⟩ := List.mem_map.mp opened
    rw [subst_nil, mem_freeVars_fill (parts d child)] at inside
    obtain ⟨w, below, here⟩ := inside
    rw [List.mem_singleton.mp here]
    exact mem_freeVars_func.mpr ⟨d, child, below⟩

private theorem Typing.tame_older {P : Term → Prop} (tame : Tame P) (c : Nat) :
    Tame fun t => P t ∧ ∀ v ∈ t.freeVars, v.Older c :=
  ⟨fun t holds part opened => ⟨tame.hereditary t holds.1 part opened, fun v free =>
      holds.2 v (Term.mem_freeVars_of_opened (tame.free holds.1) opened free)⟩,
    fun holds => tame.free holds.1⟩

theorem Typing.tame_within (c : Nat) : Tame (Term.Within c) := tame_older (tame_builtFrom _) c

theorem Typing.tame_intactWithin (θ : TypeVar → Term) (c : Nat) : Tame (Term.IntactWithin θ c) :=
  tame_older (tame_intact θ) c

section

variable {θ θ' : TypeVar → Term} {c : Nat} {s : Classes}

theorem Problem.Sane.fill_read (sane : Sane (Term.IntactWithin θ c) s) (satisfies : Satisfies θ s)
    {t : Term} (intact : t.Intact θ) : (s.read t).fill θ = t.fill θ :=
  Classes.fill_read sane.tidy sane.acyclic (fun _ _ bound => (sane.bound bound).1.1.quantifierFree)
    satisfies intact.quantifierFree

private theorem intact_reading (sane : Sane (Term.IntactWithin θ c) s) (satisfies : Satisfies θ s)
    {t : Term} (intact : t.Intact θ) : t.Intact fun v => (s.reading v).fill θ := by
  refine intact.congr fun v _ => ?_
  rw [Classes.reading, sane.fill_read satisfies (show (Term.use v).Intact θ from trivial),
    Term.fill_use]

private theorem intactWithin_reading (sane : Sane (Term.IntactWithin θ c) s)
    (satisfies : Satisfies θ s)
    {v : TypeVar} (older : v.Older c) : (s.reading v).IntactWithin θ c := by
  induction v using sane.acyclic.induction with
  | unbound v unbound =>
    rw [Classes.reading_of_unbound unbound]
    exact Term.IntactWithin.use.mpr older
  | bound v t bound ih =>
    obtain ⟨within, -⟩ := sane.bound bound
    rw [Classes.reading_of_bound sane.tidy sane.acyclic bound]
    exact .fill (intact_reading sane satisfies within.1) fun w free => ih w free (within.2 w free)

private theorem intactWithin_read (sane : Sane (Term.IntactWithin θ c) s)
    (satisfies : Satisfies θ s)
    {t : Term} (within : t.IntactWithin θ c) : (s.read t).IntactWithin θ c := by
  rw [Classes.read_eq_fill]
  exact .fill (intact_reading sane satisfies within.1) fun v free =>
    intactWithin_reading sane satisfies (within.2 v free)

theorem satisfies_renewed (sane : Sane (Term.IntactWithin θ c) s)
    (agree : ∀ v, v.Older c → θ' v = θ v) (satisfies : Satisfies θ s) : Satisfies θ' s := by
  obtain ⟨equal, stands⟩ := (Classes.satisfies_iff sane.tidy).mp satisfies
  have known {x : TypeVar} {k : Nat} (found : s.classOf? x = some k) : θ' x = θ x := by
    have mentioned := (Classes.classOf?_isSome_iff s x).mp (by rw [found]; rfl)
    exact agree x (Term.IntactWithin.use.mp (sane.mentioned mentioned))
  refine (Classes.satisfies_iff sane.tidy).mpr ⟨fun x y same => ?_, fun x t bound => ?_⟩
  · rcases (Classes.same_iff s x y).mp same with rfl | ⟨k, hx, hy⟩
    · rfl
    · rw [known hx, known hy, equal x y same]
  · obtain ⟨within, -⟩ := sane.bound bound
    have place := bound
    rw [Classes.bound?_eq_bind] at place
    obtain ⟨k, found, -⟩ := Option.bind_eq_some_iff.mp place
    rw [known found, stands x t bound, within.fill_congr agree]

end

namespace Typer

/-- Give the fresh variables that open the given ones their values from `ρ`, and all other variables
theirs from `θ`. -/
def renewed (typer : Typer) (vars : List TypeVar) (ρ θ : TypeVar → Term) (x : TypeVar) : Term :=
  match vars.find? fun v => typer.opening .unification vars v = .use x with
  | some v => ρ v
  | none => θ x

variable {typer : Typer} {vars : List TypeVar} {ρ θ : TypeVar → Term}

theorem renewed_of_older {x : TypeVar} (older : x.Older typer.counter) :
    typer.renewed vars ρ θ x = θ x := by
  rw [renewed]
  split
  · next v found =>
    have opens := List.find?_some found
    obtain ⟨n, later, -, fresh⟩ := typer.opening_of_mem .unification (List.mem_of_find?_eq_some found)
    rw [decide_eq_true_eq, fresh] at opens
    cases opens
    exact absurd older (TypeVar.not_older_numbered _ later)
  · rfl

private theorem fill_opening_renewed {v : TypeVar} (member : v ∈ vars) :
    (typer.opening .unification vars v).fill (typer.renewed vars ρ θ) = ρ v := by
  obtain ⟨n, -, -, fresh⟩ := typer.opening_of_mem .unification member
  rw [fresh, Term.fill_use, renewed]
  split
  · next w found =>
    have opens := List.find?_some found
    rw [decide_eq_true_eq, ← fresh] at opens
    rw [typer.opening_inj .unification (List.mem_of_find?_eq_some found) member opens]
  · next missing =>
    have none := List.find?_eq_none.mp missing v member
    exact absurd (decide_eq_true fresh) none

/-- The opened terms of a rule become what `ρ` makes of them, if `ρ` and `θ` agree on the variables
that the rule does not bind. -/
theorem fill_specialize_renewed (typer : Typer) {rule : Rule} (given : ∀ v ∈ rule.names, ¬v.MadeUp)
    (outside : ∀ v ∈ rule.names, v ∉ rule.typeParams → ρ v = θ v) {t : Term}
    (term : t ∈ rule.terms) (free : t.QuantifierFree) :
    (rule.specialize (typer.opening .unification rule.typeParams) t).fill
      (typer.renewed rule.typeParams ρ θ) = t.fill ρ := by
  rw [rule.fill_specialize _ _ free]
  apply Term.fill_congr
  intro v inside
  have named : v ∈ rule.names :=
    List.mem_append_right _ (List.mem_flatMap.mpr ⟨t, term, inside⟩)
  split
  · next member => exact fill_opening_renewed member
  · next other =>
    rw [renewed_of_older (TypeVar.older_of_not_madeUp (given v named) _), outside v named other]

theorem intactWithin_specialize (typer : Typer) {rule : Rule} (given : ∀ v ∈ rule.names, ¬v.MadeUp)
    (outside : ∀ v ∈ rule.names, v ∉ rule.typeParams → ρ v = θ v) {t : Term}
    (term : t ∈ rule.terms) (intact : t.Intact ρ) :
    (rule.specialize (typer.opening .unification rule.typeParams) t).IntactWithin
      (typer.renewed rule.typeParams ρ θ) (typer.counter + rule.typeParams.length) := by
  have named {v : TypeVar} (free : v ∈ t.freeVars) : v ∈ rule.names :=
    List.mem_append_right _ (List.mem_flatMap.mpr ⟨t, term, free⟩)
  rw [rule.specialize_eq_fill]
  refine .fill (intact.congr fun v free => ?_) fun v free => ?_
  · split
    · next member => exact fill_opening_renewed member
    · next other =>
      rw [Term.fill_use, renewed_of_older (TypeVar.older_of_not_madeUp (given v (named free)) _),
        outside v (named free) other]
  · split
    · next member =>
      obtain ⟨n, -, upper, fresh⟩ := typer.opening_of_mem .unification member
      rw [fresh]
      exact Term.IntactWithin.use.mpr (TypeVar.older_numbered _ upper)
    · exact Term.IntactWithin.use.mpr (TypeVar.older_of_not_madeUp (given v (named free)) _)

end Typer

/-- A typer that knows more than before, with a solution that is as before on what was known then. -/
structure Renewal (before after : Typer) (θ θ' : TypeVar → Term) : Prop where
  counter : before.counter ≤ after.counter
  older : ∀ v, v.Older before.counter → θ' v = θ v
  sane : Sane (Term.IntactWithin θ' after.counter) after.classes
  satisfies : Satisfies θ' after.classes

namespace Renewal

variable {before after : Typer} {θ θ' : TypeVar → Term}

theorem within (renewal : Renewal before after θ θ') {t : Term}
    (within : t.IntactWithin θ before.counter) : t.IntactWithin θ' after.counter :=
  (within.congr renewal.older).mono renewal.counter

theorem read (renewal : Renewal before after θ θ') {t : Term}
    (within : t.IntactWithin θ' after.counter) :
    (after.read t).IntactWithin θ' after.counter ∧ (after.read t).fill θ' = t.fill θ' :=
  ⟨intactWithin_read renewal.sane renewal.satisfies within,
    renewal.sane.fill_read renewal.satisfies within.1⟩

theorem fill_eq (renewal : Renewal before after θ θ') {t : Term}
    (within : t.IntactWithin θ before.counter) : t.fill θ' = t.fill θ :=
  within.fill_congr renewal.older

theorem names {β : Type} {registry : Registry β} {P : Term → Prop} (rulesOver : registry.Over P)
    (renewal : Renewal before after θ θ') : ∀ inst ∈ registry, ∀ v ∈ inst.rule.names, θ' v = θ v :=
  fun inst registered v named =>
    renewal.older v (TypeVar.older_of_not_madeUp ((rulesOver inst registered).2 v named) _)

end Renewal

end TypedCalls
