import Mathlib.Logic.Relation
import TypedCalls.Proofs.Classes.Solutions

/-!
Solving equations between terms, one step at a time.

A problem is what the classes know together with equations still to be solved. A step takes the first
equation apart, looks a variable up, or teaches the classes that a variable stands for something. No
step gains a solution (`Step.solves_of_solves`), and none loses one that leaves the nullable markers
intact (`Step.solves`), so no step changes the solutions of a first-order problem (`Step.solves_iff`).
A problem whose first equation clashes has no solution of that kind (`Clashes.not_solves`).
-/

set_option autoImplicit false

namespace TypedCalls

open Classes (Satisfies LeadsTo Tidy Acyclic)

namespace Term

/-- Both are the same constructor applied to equally many arguments, or functions of equally many
parameters. -/
def SameShape : Term → Term → Prop
  | .con h as, .con k bs => h = k ∧ as.length = bs.length
  | .func [] ps _, .func [] qs _ => ps.length = qs.length
  | _, _ => False

def opened : Term → List Term
  | .con _ args => args
  | .use _ => []
  | .scheme .. => []
  | .func _ params result => (params ++ [result]).map (subst [])

theorem subst_nil (t : Term) : t.subst [] = t.fill use := by
  rw [subst, substWithin, replace_nil_eq_fill]
  rfl

theorem builtFrom_opened {allowed : String → Prop} {t : Term} (built : t.BuiltFrom allowed)
    {c : Term} (member : c ∈ t.opened) : c.BuiltFrom allowed := by
  cases t with
  | con head args => exact built.child member
  | use v => cases member
  | scheme quantifier vars body => cases member
  | func typeParams params result =>
    obtain ⟨d, inside, rfl⟩ := List.mem_map.mp member
    rw [subst_nil]
    exact builtFrom_fill (built.child inside) fun _ _ => trivial

private theorem map_fill_opened (θ : TypeVar → Term) {t : Term} (free : t.QuantifierFree) :
    t.opened.map (fill θ) = t.children.map (fill θ) := by
  cases t with
  | con head args => rfl
  | use v => rfl
  | scheme quantifier vars body => rfl
  | func typeParams params result =>
    rw [opened, children, List.map_map]
    apply List.map_congr_left
    intro c member
    rw [Function.comp_apply, subst_nil, fill_fill _ _ (BuiltFrom.child free member)]
    simp only [fill_use]

theorem Intact.opened_eq {θ : TypeVar → Term} {t : Term} (intact : t.Intact θ) :
    t.opened = t.children := by
  cases t with
  | con head args => rfl
  | use v => rfl
  | scheme quantifier vars body => rfl
  | func typeParams params result =>
    rw [opened, children]
    refine (List.map_congr_left fun c member => ?_).trans (List.map_id' _)
    rw [subst_nil]
    exact (intact.child member).fill_use_self

private theorem fill_eq_of_children {θ : TypeVar → Term} {a b : Term} (shape : SameShape a b)
    (equal : a.children.map (fill θ) = b.children.map (fill θ)) : a.fill θ = b.fill θ := by
  match a, b, shape with
  | .con h as, .con _ bs, ⟨rfl, _⟩ =>
    rw [fill_con, fill_con]
    exact congrArg _ equal
  | .func [] ps r, .func [] qs t, count =>
    rw [fill_func, fill_func]
    simp only [children, List.map_append, List.map_cons, List.map_nil] at equal
    obtain ⟨params, result⟩ := List.append_inj' equal rfl
    rw [params, List.singleton_inj.mp result]

private theorem Intact.shape_of_fill_eq {θ : TypeVar → Term} {a b : Term} (intactA : a.Intact θ)
    (intactB : b.Intact θ) (notUseA : ∀ w, a ≠ use w) (notUseB : ∀ w, b ≠ use w)
    (equal : a.fill θ = b.fill θ) :
    SameShape a b ∧ a.children.map (fill θ) = b.children.map (fill θ) := by
  have parts : a.children.map (fill θ) = b.children.map (fill θ) := by
    rw [← intactA.children_fill notUseA, ← intactB.children_fill notUseB, equal]
  refine ⟨?_, parts⟩
  have counts : a.children.length = b.children.length := by
    simpa using congrArg List.length parts
  match a, b with
  | .con h as, .con k bs =>
    rw [(intact_con.mp intactA).1, (intact_con.mp intactB).1] at equal
    injection equal with heads
    exact ⟨heads, counts⟩
  | .con h as, .func vs ps r =>
    obtain ⟨rfl, -⟩ := intact_func.mp intactB
    rw [(intact_con.mp intactA).1, fill_func] at equal
    cases equal
  | .func vs ps r, .con h as =>
    obtain ⟨rfl, -⟩ := intact_func.mp intactA
    rw [(intact_con.mp intactB).1, fill_func] at equal
    cases equal
  | .func vs ps r, .func ws qs t =>
    obtain ⟨rfl, -⟩ := intact_func.mp intactA
    obtain ⟨rfl, -⟩ := intact_func.mp intactB
    simp only [children, List.length_append, List.length_singleton] at counts
    exact Nat.add_right_cancel counts
  | .use v, _ => exact absurd rfl (notUseA v)
  | _, .use v => exact absurd rfl (notUseB v)
  | .scheme .., _ => exact absurd intactA (by simp [Intact])
  | _, .scheme .. => exact absurd intactB (by simp [Intact])

private theorem SameShape.ne_use {a b : Term} (shape : SameShape a b) :
    (∀ w, a ≠ use w) ∧ ∀ w, b ≠ use w := by
  match a, b, shape with
  | .con .., .con .., _ => exact ⟨nofun, nofun⟩
  | .func [] .., .func [] .., _ => exact ⟨nofun, nofun⟩

private theorem SameShape.length_opened {a b : Term} (shape : SameShape a b) :
    a.opened.length = b.opened.length := by
  match a, b, shape with
  | .con _ as, .con _ bs, ⟨_, count⟩ => exact count
  | .func [] ps _, .func [] qs _, count =>
    have count : ps.length = qs.length := count
    simp [opened, count]

end Term

/-- What is known, and the equations still to be solved. -/
structure Problem where
  classes : Classes
  equations : List (Term × Term)

namespace Problem

def Solves (θ : TypeVar → Term) (p : Problem) : Prop :=
  Satisfies θ p.classes ∧ ∀ e ∈ p.equations, e.1.fill θ = e.2.fill θ

private theorem solves_cons {θ : TypeVar → Term} {s : Classes} {a b : Term}
    {rest : List (Term × Term)} :
    Solves θ ⟨s, (a, b) :: rest⟩ ↔ a.fill θ = b.fill θ ∧ Solves θ ⟨s, rest⟩ := by
  simp only [Solves, List.forall_mem_cons]
  exact and_left_comm

private theorem solves_zip {θ : TypeVar → Term} {s : Classes} {as bs : List Term}
    {rest : List (Term × Term)} (count : as.length = bs.length) :
    Solves θ ⟨s, as.zip bs ++ rest⟩ ↔
      as.map (Term.fill θ) = bs.map (Term.fill θ) ∧ Solves θ ⟨s, rest⟩ := by
  induction as generalizing bs with
  | nil =>
    have : bs = [] := List.eq_nil_of_length_eq_zero (by simpa using count.symm)
    simp [this]
  | cons a as ih =>
    match bs, count with
    | b :: bs, count =>
      rw [List.zip_cons_cons, List.cons_append, solves_cons, ih (by simpa using count)]
      simp [and_assoc]

/-- One step of solving the first equation. -/
inductive Step : Problem → Problem → Prop
  | drop {s : Classes} {a : Term} {rest : List (Term × Term)} :
      Step ⟨s, (a, a) :: rest⟩ ⟨s, rest⟩
  | swap {s : Classes} {a b : Term} {rest : List (Term × Term)} :
      Step ⟨s, (a, b) :: rest⟩ ⟨s, (b, a) :: rest⟩
  | look {s : Classes} {v : TypeVar} {t b : Term} {rest : List (Term × Term)} :
      s.bound? v = some t → Step ⟨s, (.use v, b) :: rest⟩ ⟨s, (t, b) :: rest⟩
  | skip {s : Classes} {v w : TypeVar} {rest : List (Term × Term)} :
      s.same v w = true → Step ⟨s, (.use v, .use w) :: rest⟩ ⟨s, rest⟩
  | join {s : Classes} {v w : TypeVar} {rest : List (Term × Term)} :
      s.bound? v = none → ¬LeadsTo s w v →
        Step ⟨s, (.use v, .use w) :: rest⟩ ⟨s.join v w, rest⟩
  | bind {s : Classes} {v : TypeVar} {t : Term} {rest : List (Term × Term)} :
      s.bound? v = none → (∀ w, t ≠ .use w) → (∀ y ∈ t.freeVars, ¬LeadsTo s y v) →
        Step ⟨s, (.use v, t) :: rest⟩ ⟨s.set v (some t), rest⟩
  | parts {s : Classes} {a b : Term} {rest : List (Term × Term)} :
      a.SameShape b → Step ⟨s, (a, b) :: rest⟩ ⟨s, a.opened.zip b.opened ++ rest⟩

/-- The first equation cannot be solved: its sides are of different shapes, or one of them is an
unbound variable that the other contains. -/
inductive Clashes : Problem → Prop
  | shapes {s : Classes} {a b : Term} {rest : List (Term × Term)} :
      (∀ w, a ≠ .use w) → (∀ w, b ≠ .use w) → ¬a.SameShape b → Clashes ⟨s, (a, b) :: rest⟩
  | recursive {s : Classes} {v y : TypeVar} {t : Term} {rest : List (Term × Term)} :
      (∀ w, t ≠ .use w) → y ∈ t.freeVars → LeadsTo s y v → Clashes ⟨s, (.use v, t) :: rest⟩

abbrev Steps : Problem → Problem → Prop := Relation.ReflTransGen Step

/-! What steps keep. -/

/-- Classes as unification leaves them: tidy and acyclic, with a given property of the variables they
mention and of the terms that these are bound to, which are no variables. -/
structure Sane (P : Term → Prop) (s : Classes) : Prop where
  tidy : Tidy s
  acyclic : Acyclic s
  bound : ∀ {x t}, s.bound? x = some t → P t ∧ ∀ w, t ≠ .use w
  mentioned : ∀ {x}, x ∈ s.mentioned → P (.use x)

theorem sane_empty (P : Term → Prop) : Sane P .empty :=
  ⟨Classes.tidy_empty, Classes.acyclic_empty, fun bound => by
    simp [Classes.bound?, Classes.classOf?, Classes.entry?, Classes.empty] at bound, nofun⟩

theorem Sane.mono {P Q : Term → Prop} {s : Classes} (sane : Sane P s) (weaker : ∀ t, P t → Q t) :
    Sane Q s :=
  ⟨sane.tidy, sane.acyclic, fun bound => ⟨weaker _ (sane.bound bound).1, (sane.bound bound).2⟩,
    fun member => weaker _ (sane.mentioned member)⟩

/-- A problem all of whose terms have a property. -/
structure Fine (P : Term → Prop) (p : Problem) : Prop where
  sane : Sane P p.classes
  equations : ∀ e ∈ p.equations, P e.1 ∧ P e.2

theorem Fine.mono {P Q : Term → Prop} {p : Problem} (fine : Fine P p)
    (weaker : ∀ t, P t → Q t) : Fine Q p :=
  ⟨fine.sane.mono weaker, fun e member =>
    ⟨weaker _ (fine.equations e member).1, weaker _ (fine.equations e member).2⟩⟩

theorem Sane.set {P : Term → Prop} {s : Classes} (sane : Sane P s) {v : TypeVar} {t : Term}
    (var : P (.use v)) (term : P t) (notUse : ∀ w, t ≠ .use w)
    (apart : ∀ y ∈ t.freeVars, ¬LeadsTo s y v) : Sane P (s.set v (some t)) := by
  obtain ⟨tidy, -, bounds, mention⟩ := Classes.set_spec sane.tidy v (some t)
  refine ⟨tidy, sane.acyclic.set sane.tidy apart, fun {x u} bound => ?_, fun {x} member => ?_⟩
  · rw [bounds] at bound
    split at bound
    · cases bound
      exact ⟨term, notUse⟩
    · exact sane.bound bound
  · rcases (mention x).mp member with old | rfl
    · exact sane.mentioned old
    · exact var

theorem Sane.join {P : Term → Prop} {s : Classes} (sane : Sane P s) {v w : TypeVar}
    (left : P (.use v)) (right : P (.use w)) (unbound : s.bound? v = none)
    (apart : ¬LeadsTo s w v) : Sane P (s.join v w) := by
  obtain ⟨tidy, -, bounds, mention⟩ := Classes.join_spec sane.tidy w unbound
  refine ⟨tidy, sane.acyclic.join sane.tidy unbound apart, fun {x u} bound => ?_,
    fun {x} member => ?_⟩
  · rw [bounds] at bound
    split at bound
    · exact sane.bound bound
    · exact sane.bound bound
  · rcases (mention x).mp member with old | rfl | rfl
    · exact sane.mentioned old
    · exact left
    · exact right

def Hereditary (P : Term → Prop) : Prop := ∀ t, P t → ∀ c ∈ t.opened, P c

private theorem Step.fine {P : Term → Prop} (hereditary : Hereditary P) {p q : Problem}
    (step : Step p q) (fine : Fine P p) : Fine P q := by
  obtain ⟨sane, equations⟩ := fine
  cases step with
  | drop => exact ⟨sane, fun e member => equations e (List.mem_cons_of_mem _ member)⟩
  | @swap s a b rest =>
    obtain ⟨⟨ha, hb⟩, others⟩ := List.forall_mem_cons.mp equations
    exact ⟨sane, List.forall_mem_cons.mpr ⟨⟨hb, ha⟩, others⟩⟩
  | look bound =>
    obtain ⟨⟨-, hb⟩, others⟩ := List.forall_mem_cons.mp equations
    exact ⟨sane, List.forall_mem_cons.mpr ⟨⟨(sane.bound bound).1, hb⟩, others⟩⟩
  | skip => exact ⟨sane, fun e member => equations e (List.mem_cons_of_mem _ member)⟩
  | join unbound apart =>
    obtain ⟨⟨hv, hw⟩, others⟩ := List.forall_mem_cons.mp equations
    exact ⟨sane.join hv hw unbound apart, others⟩
  | bind _ notUse apart =>
    obtain ⟨⟨hv, ht⟩, others⟩ := List.forall_mem_cons.mp equations
    exact ⟨sane.set hv ht notUse apart, others⟩
  | @parts s a b rest shape =>
    obtain ⟨⟨ha, hb⟩, others⟩ := List.forall_mem_cons.mp equations
    refine ⟨sane, fun e member => ?_⟩
    rcases List.mem_append.mp member with part | other
    · obtain ⟨left, right⟩ := List.of_mem_zip part
      exact ⟨hereditary a ha _ left, hereditary b hb _ right⟩
    · exact others e other

theorem Steps.fine {P : Term → Prop} (hereditary : Hereditary P) {p q : Problem}
    (steps : Steps p q) (fine : Fine P p) : Fine P q := by
  induction steps with
  | refl => exact fine
  | tail _ step ih => exact step.fine hereditary ih

/-- What the first classes know, the second know too. -/
structure Extends (s s' : Classes) : Prop where
  same : ∀ {x y}, s.same x y = true → s'.same x y = true
  bound : ∀ {x t}, s.bound? x = some t → s'.bound? x = some t

theorem Extends.refl (s : Classes) : Extends s s := ⟨id, id⟩

theorem Extends.trans {s s' s'' : Classes} (first : Extends s s') (second : Extends s' s'') :
    Extends s s'' :=
  ⟨fun h => second.same (first.same h), fun h => second.bound (first.bound h)⟩

theorem Step.extends {p q : Problem} (step : Step p q) (tidy : Tidy p.classes) :
    Extends p.classes q.classes := by
  cases step with
  | drop => exact .refl _
  | swap => exact .refl _
  | look => exact .refl _
  | skip => exact .refl _
  | @join s v w rest unbound _ =>
    obtain ⟨-, same, bounds, -⟩ := Classes.join_spec tidy w unbound
    refine ⟨fun {x y} h => (same x y).mpr (.inl h), fun {x t} bound => ?_⟩
    rw [bounds]
    split
    · next here =>
      rcases here with h | h
      · rw [Classes.bound?_of_same h, unbound] at bound
        cases bound
      · rw [← Classes.bound?_of_same h, bound]
    · exact bound
  | @bind s v t rest unbound _ _ =>
    obtain ⟨-, same, bounds, -⟩ := Classes.set_spec tidy v (some t)
    refine ⟨fun {x y} h => (same x y).trans h, fun {x u} bound => ?_⟩
    have other : ¬s.same x v = true := by
      intro h
      rw [Classes.bound?_of_same h, unbound] at bound
      cases bound
    rw [bounds, if_neg other, bound]
  | parts => exact .refl _

theorem Steps.extends {P : Term → Prop} (hereditary : Hereditary P) {p q : Problem}
    (steps : Steps p q) (fine : Fine P p) : Extends p.classes q.classes := by
  induction steps with
  | refl => exact .refl _
  | tail before step ih =>
    have mid := Steps.fine hereditary before fine
    exact ih.trans (step.extends mid.sane.tidy)

/-! What steps do to solutions. -/

theorem hereditary_builtFrom (allowed : String → Prop) :
    Hereditary fun t => t.BuiltFrom allowed :=
  fun _ built _ member => Term.builtFrom_opened built member

theorem hereditary_intact (θ : TypeVar → Term) : Hereditary (Term.Intact θ) :=
  fun _ intact _ member => intact.child (intact.opened_eq ▸ member)

theorem Step.solves_of_solves {θ : TypeVar → Term} {p q : Problem} (step : Step p q)
    (fine : Fine Term.QuantifierFree p) (solves : Solves θ q) : Solves θ p := by
  cases step with
  | drop => exact solves_cons.mpr ⟨rfl, solves⟩
  | swap =>
    obtain ⟨equal, rest⟩ := solves_cons.mp solves
    exact solves_cons.mpr ⟨equal.symm, rest⟩
  | look bound =>
    obtain ⟨equal, rest⟩ := solves_cons.mp solves
    obtain ⟨-, stands⟩ := (Classes.satisfies_iff fine.sane.tidy).mp rest.1
    refine solves_cons.mpr ⟨?_, rest⟩
    rw [Term.fill_use, stands _ _ bound, equal]
  | skip same =>
    obtain ⟨equal, -⟩ := (Classes.satisfies_iff fine.sane.tidy).mp solves.1
    refine solves_cons.mpr ⟨?_, solves⟩
    rw [Term.fill_use, Term.fill_use, equal _ _ same]
  | @join s v w rest unbound _ =>
    obtain ⟨known, equal⟩ := (Classes.satisfies_join fine.sane.tidy w unbound).mp solves.1
    refine solves_cons.mpr ⟨?_, known, solves.2⟩
    rw [Term.fill_use, Term.fill_use, equal]
  | @bind s v t rest unbound _ _ =>
    obtain ⟨known, equal⟩ := (Classes.satisfies_set fine.sane.tidy unbound t).mp solves.1
    refine solves_cons.mpr ⟨?_, known, solves.2⟩
    rw [Term.fill_use, equal]
  | @parts s a b rest shape =>
    obtain ⟨⟨freeA, freeB⟩, -⟩ := List.forall_mem_cons.mp fine.equations
    obtain ⟨equal, others⟩ := (solves_zip shape.length_opened).mp solves
    rw [Term.map_fill_opened θ freeA, Term.map_fill_opened θ freeB] at equal
    exact solves_cons.mpr ⟨Term.fill_eq_of_children shape equal, others⟩

theorem Step.solves {θ : TypeVar → Term} {p q : Problem} (step : Step p q)
    (fine : Fine (Term.Intact θ) p) (solves : Solves θ p) : Solves θ q := by
  cases step with
  | drop => exact (solves_cons.mp solves).2
  | swap =>
    obtain ⟨equal, rest⟩ := solves_cons.mp solves
    exact solves_cons.mpr ⟨equal.symm, rest⟩
  | look bound =>
    obtain ⟨equal, rest⟩ := solves_cons.mp solves
    obtain ⟨-, stands⟩ := (Classes.satisfies_iff fine.sane.tidy).mp rest.1
    refine solves_cons.mpr ⟨?_, rest⟩
    rw [← stands _ _ bound, ← equal, Term.fill_use]
  | skip => exact (solves_cons.mp solves).2
  | @join s v w rest unbound _ =>
    obtain ⟨equal, known, others⟩ := solves_cons.mp solves
    rw [Term.fill_use, Term.fill_use] at equal
    exact ⟨(Classes.satisfies_join fine.sane.tidy w unbound).mpr ⟨known, equal⟩, others⟩
  | @bind s v t rest unbound _ _ =>
    obtain ⟨equal, known, others⟩ := solves_cons.mp solves
    rw [Term.fill_use] at equal
    exact ⟨(Classes.satisfies_set fine.sane.tidy unbound t).mpr ⟨known, equal⟩, others⟩
  | @parts s a b rest shape =>
    obtain ⟨⟨intactA, intactB⟩, -⟩ := List.forall_mem_cons.mp fine.equations
    obtain ⟨equal, others⟩ := solves_cons.mp solves
    refine (solves_zip shape.length_opened).mpr ⟨?_, others⟩
    rw [intactA.opened_eq, intactB.opened_eq]
    obtain ⟨notUseA, notUseB⟩ := shape.ne_use
    exact (intactA.shape_of_fill_eq intactB notUseA notUseB equal).2

theorem Step.solves_iff {θ : TypeVar → Term} {p q : Problem} (step : Step p q)
    (fine : Fine Term.FirstOrder p) : Solves θ q ↔ Solves θ p :=
  ⟨step.solves_of_solves (fine.mono fun _ first => Term.BuiltFrom.quantifierFree first),
    step.solves (fine.mono fun _ first => first.intact θ)⟩

theorem Steps.solves_of_solves {θ : TypeVar → Term} {p q : Problem} (steps : Steps p q)
    (fine : Fine Term.QuantifierFree p) (solves : Solves θ q) : Solves θ p := by
  induction steps with
  | refl => exact solves
  | tail before step ih =>
    have mid := Steps.fine (hereditary_builtFrom _) before fine
    exact ih (step.solves_of_solves mid solves)

theorem Steps.solves {θ : TypeVar → Term} {p q : Problem} (steps : Steps p q)
    (fine : Fine (Term.Intact θ) p) (solves : Solves θ p) : Solves θ q := by
  induction steps with
  | refl => exact solves
  | tail before step ih => exact step.solves (Steps.fine (hereditary_intact θ) before fine) ih

theorem Steps.solves_iff {θ : TypeVar → Term} {p q : Problem} (steps : Steps p q)
    (fine : Fine Term.FirstOrder p) : Solves θ q ↔ Solves θ p := by
  induction steps with
  | refl => exact Iff.rfl
  | tail before step ih =>
    have mid := Steps.fine (hereditary_builtFrom _) before fine
    exact (step.solves_iff mid).trans ih

theorem Clashes.not_solves {θ : TypeVar → Term} {p : Problem} (clashes : Clashes p)
    (fine : Fine (Term.Intact θ) p) : ¬Solves θ p := by
  intro solves
  cases clashes with
  | @shapes s a b rest notUseA notUseB differ =>
    obtain ⟨⟨intactA, intactB⟩, -⟩ := List.forall_mem_cons.mp fine.equations
    obtain ⟨equal, -⟩ := solves_cons.mp solves
    exact differ (intactA.shape_of_fill_eq intactB notUseA notUseB equal).1
  | @recursive s v y t rest notUse free leads =>
    obtain ⟨⟨-, intact⟩, -⟩ := List.forall_mem_cons.mp fine.equations
    obtain ⟨equal, known, -⟩ := solves_cons.mp solves
    rw [Term.fill_use] at equal
    have inside : (θ y).size < (t.fill θ).size := intact.size_lt_size_fill notUse free
    have contains : (θ v).size ≤ (θ y).size :=
      known.size_le fine.sane.tidy (fun x u bound => (fine.sane.bound bound).1) leads
    rw [← equal] at inside
    omega

end Problem

end TypedCalls
