import Mathlib.Data.Finset.Card
import TypedCalls.Proofs.Typer.Runs

/-!
How deep unification goes on first-order terms.

Every term that comes up is part of a term given or bound at the start. Going down to a child makes
the term smaller, as read through everything that is known, and looking a variable up does not
change what is read; so a path enters each of these parts at most once, whatever is learned on the
way (`Nested.lt_card`). Between two parts a path looks up at most one variable on either side. The
depth that `unify` allows is therefore never used up (`ends_unify`).
-/

set_option autoImplicit false

namespace TypedCalls

namespace Term

mutual

def subterms : Term → List Term
  | .con head args => .con head args :: subtermsAll args
  | .use v => [.use v]
  | .scheme quantifier vars body => [.scheme quantifier vars body]
  | .func typeParams params result =>
    .func typeParams params result :: (subtermsAll params ++ result.subterms)

def subtermsAll : List Term → List Term
  | [] => []
  | t :: ts => t.subterms ++ subtermsAll ts

end

private theorem mem_subtermsAll {ts : List Term} {x : Term} :
    x ∈ subtermsAll ts ↔ ∃ t ∈ ts, x ∈ t.subterms := by
  induction ts with
  | nil => simp [subtermsAll]
  | cons t ts ih => simp [subtermsAll, ih]

private theorem mem_subterms_self (t : Term) : t ∈ t.subterms := by
  cases t <;> simp [subterms]

private theorem mem_subterms_of_child {t c x : Term} (child : c ∈ t.children)
    (below : x ∈ c.subterms) : x ∈ t.subterms := by
  cases t with
  | con head args => exact List.mem_cons_of_mem _ (mem_subtermsAll.mpr ⟨c, child, below⟩)
  | use v => cases child
  | scheme quantifier vars body => cases child
  | func typeParams params result =>
    refine List.mem_cons_of_mem _ ?_
    rcases List.mem_append.mp child with inParams | isResult
    · exact List.mem_append_left _ (mem_subtermsAll.mpr ⟨c, inParams, below⟩)
    · rw [List.mem_singleton.mp isResult] at below
      exact List.mem_append_right _ below

private theorem child_mem_subterms {t x c : Term} (part : x ∈ t.subterms) (child : c ∈ x.children) :
    c ∈ t.subterms := by
  induction t using Term.induct with
  | con head args ih =>
    rcases List.mem_cons.mp part with rfl | inside
    · exact mem_subterms_of_child child (mem_subterms_self c)
    · obtain ⟨a, member, below⟩ := mem_subtermsAll.mp inside
      exact mem_subterms_of_child (t := con head args) member (ih a member below)
  | use v =>
    rw [List.mem_singleton.mp part] at child
    cases child
  | scheme quantifier vars body =>
    rw [List.mem_singleton.mp part] at child
    cases child
  | func typeParams params result ihParams ihResult =>
    rcases List.mem_cons.mp part with rfl | inside
    · exact mem_subterms_of_child child (mem_subterms_self c)
    · rcases List.mem_append.mp inside with inParams | inResult
      · obtain ⟨p, member, below⟩ := mem_subtermsAll.mp inParams
        exact mem_subterms_of_child (t := func typeParams params result)
          (List.mem_append_left _ member) (ihParams p member below)
      · exact mem_subterms_of_child (t := func typeParams params result)
          (List.mem_append_right _ (List.mem_singleton_self _)) (ihResult inResult)

private theorem length_subtermsAll_le_of {ts : List Term}
    (each : ∀ t ∈ ts, t.subterms.length ≤ t.size) : (subtermsAll ts).length ≤ sizeAll ts := by
  induction ts with
  | nil => exact Nat.le_refl 0
  | cons t ts ih =>
    have head := each t (List.mem_cons_self ..)
    have tail := ih fun u member => each u (List.mem_cons_of_mem _ member)
    rw [subtermsAll, List.length_append, sizeAll]
    omega

private theorem length_subterms_le_size (t : Term) : t.subterms.length ≤ t.size := by
  induction t using Term.induct with
  | con head args ih =>
    have parts := length_subtermsAll_le_of ih
    rw [subterms, List.length_cons, size]
    omega
  | use v => exact Nat.le_refl 1
  | scheme quantifier vars body =>
    rw [subterms, List.length_singleton, size]
    omega
  | func typeParams params result ihParams ihResult =>
    have parts := length_subtermsAll_le_of ihParams
    rw [subterms, List.length_cons, List.length_append, size]
    omega

private theorem length_subtermsAll_le (ts : List Term) : (subtermsAll ts).length ≤ sizeAll ts :=
  length_subtermsAll_le_of fun t _ => length_subterms_le_size t

theorem sizeAll_append (ts us : List Term) : sizeAll (ts ++ us) = sizeAll ts + sizeAll us := by
  induction ts with
  | nil => rw [List.nil_append, sizeAll, Nat.zero_add]
  | cons t ts ih =>
    rw [List.cons_append, sizeAll, sizeAll, ih]
    omega

theorem FirstOrder.fill_use_self {t : Term} (first : t.FirstOrder) : t.fill use = t :=
  (first.intact use).fill_use_self

private theorem FirstOrder.opened_eq {t : Term} (first : t.FirstOrder) : t.opened = t.children :=
  (first.intact use).opened_eq

end Term

namespace Typing

open Problem

/-- A term is reached from one of the given parts by going down to a child `n` times and looking
variables up in between. -/
inductive Nested (parts : Finset Term) (s : Classes) : Nat → Term → Prop
  | given {x : Term} : x ∈ parts → Nested parts s 0 x
  | child {n : Nat} {x c : Term} : Nested parts s n x → c ∈ x.children → Nested parts s (n + 1) c
  | look {n : Nat} {v : TypeVar} {t : Term} : Nested parts s n (.use v) → s.bound? v = some t →
      Nested parts s n t

private theorem Nested.later {parts : Finset Term} {s s' : Classes} (extension : Extends s s')
    {n : Nat} {x : Term} (nested : Nested parts s n x) : Nested parts s' n x := by
  induction nested with
  | given member => exact .given member
  | child _ member ih => exact .child ih member
  | look _ bound ih => exact .look ih (extension.bound bound)

def PartOf (parts : Finset Term) (t : Term) : Prop :=
  t.FirstOrder ∧ ((∃ v, t = .use v) ∨ t ∈ parts)

section

variable {parts : Finset Term} {s : Classes}

private theorem Nested.mem (closed : ∀ t ∈ parts, ∀ c ∈ t.children, c ∈ parts)
    (sane : Sane (PartOf parts) s) {n : Nat} {x : Term} (nested : Nested parts s n x) :
    x ∈ parts := by
  induction nested with
  | given member => exact member
  | child _ member ih => exact closed _ ih _ member
  | look _ bound =>
    obtain ⟨⟨-, place⟩, notUse⟩ := sane.bound bound
    rcases place with ⟨v, isUse⟩ | member
    · exact absurd isUse (notUse v)
    · exact member

private def smaller (parts : Finset Term) (s : Classes) (x : Term) : Finset Term :=
  parts.filter fun t => (t.fill s.solution).size < (x.fill s.solution).size

private theorem Nested.add_card_smaller_lt (closed : ∀ t ∈ parts, ∀ c ∈ t.children, c ∈ parts)
    (first : ∀ t ∈ parts, t.FirstOrder) (sane : Sane (PartOf parts) s) {n : Nat} {x : Term}
    (nested : Nested parts s n x) : n + (smaller parts s x).card < parts.card := by
  induction nested with
  | @given x member =>
    have strict : smaller parts s x ⊂ parts :=
      Finset.filter_ssubset.mpr ⟨x, member, Nat.lt_irrefl _⟩
    have fewer := Finset.card_lt_card strict
    omega
  | @child n x c before member ih =>
    have inside : x ∈ parts := before.mem closed sane
    have notUse : ∀ w, x ≠ .use w := by
      rintro w rfl
      cases member
    have less := ((first x inside).intact s.solution).size_fill_child_lt notUse member
    have strict : smaller parts s c ⊂ smaller parts s x := by
      refine Finset.ssubset_iff_subset_ne.mpr ⟨fun t found => ?_, fun equal => ?_⟩
      · obtain ⟨part, size⟩ := Finset.mem_filter.mp found
        exact Finset.mem_filter.mpr ⟨part, Nat.lt_trans size less⟩
      · have found : c ∈ smaller parts s x :=
          Finset.mem_filter.mpr ⟨closed x inside c member, less⟩
        rw [← equal] at found
        exact Nat.lt_irrefl _ (Finset.mem_filter.mp found).2
    have fewer := Finset.card_lt_card strict
    omega
  | @look n v t before bound ih =>
    have free : ∀ x t, s.bound? x = some t → t.QuantifierFree := fun x t bound =>
      Term.BuiltFrom.quantifierFree (sane.bound bound).1.1
    have satisfies := Classes.satisfies_solution sane.tidy sane.acyclic free
    have stands := ((Classes.satisfies_iff sane.tidy).mp satisfies).2 v t bound
    have equal : smaller parts s t = smaller parts s (.use v) := by
      rw [smaller, smaller, Term.fill_use, stands]
    rw [equal]
    exact ih

theorem Nested.lt_card (closed : ∀ t ∈ parts, ∀ c ∈ t.children, c ∈ parts)
    (first : ∀ t ∈ parts, t.FirstOrder) (sane : Sane (PartOf parts) s) {n : Nat} {x : Term}
    (nested : Nested parts s n x) : n < parts.card := by
  have bound := nested.add_card_smaller_lt closed first sane
  omega

end

def lookups : Term → Nat
  | .use _ => 1
  | _ => 0

private theorem lookups_le_one (t : Term) : lookups t ≤ 1 := by
  cases t <;> simp [lookups]

private theorem lookups_of_ne_use {t : Term} (notUse : ∀ w, t ≠ .use w) : lookups t = 0 := by
  cases t with
  | use v => exact absurd rfl (notUse v)
  | _ => rfl

def Fits (parts : Finset Term) (depth : Nat) (s : Classes) (e : Term × Term) : Prop :=
  PartOf parts e.1 ∧ PartOf parts e.2 ∧ ∃ n, Nested parts s n e.1 ∧ Nested parts s n e.2 ∧
    3 * (parts.card - n - 1) + 1 + lookups e.1 + lookups e.2 ≤ depth

private theorem hereditary_partOf {parts : Finset Term}
    (closed : ∀ t ∈ parts, ∀ c ∈ t.children, c ∈ parts) : Hereditary (PartOf parts) := by
  intro t part c member
  refine ⟨Term.builtFrom_opened part.1 member, .inr ?_⟩
  rw [part.1.opened_eq] at member
  rcases part.2 with ⟨v, rfl⟩ | inside
  · cases member
  · exact closed t inside c member

private theorem descends_fits {parts : Finset Term}
    (closed : ∀ t ∈ parts, ∀ c ∈ t.children, c ∈ parts) (first : ∀ t ∈ parts, t.FirstOrder)
    (depth : Nat) :
    Descends (PartOf parts) (Fits parts (depth + 1)) (Fits parts depth) where
  holds fits := ⟨fits.1, fits.2.1⟩
  swap fits := by
    obtain ⟨left, right, n, nestedA, nestedB, enough⟩ := fits
    refine ⟨right, left, n, nestedB, nestedA, ?_⟩
    dsimp only at enough ⊢
    omega
  look {s v t b} sane bound fits := by
    obtain ⟨-, right, n, nestedA, nestedB, enough⟩ := fits
    have none : lookups t = 0 := lookups_of_ne_use (sane.bound bound).2
    refine ⟨(sane.bound bound).1, right, n, .look nestedA bound, nestedB, ?_⟩
    dsimp only at enough ⊢
    rw [lookups] at enough
    omega
  parts {s a b} sane shape fits e member := by
    obtain ⟨left, right, n, nestedA, nestedB, enough⟩ := fits
    obtain ⟨memberA, memberB⟩ := List.of_mem_zip (show (e.1, e.2) ∈ _ from member)
    have holds : PartOf parts e.1 ∧ PartOf parts e.2 :=
      ⟨hereditary_partOf closed a left _ memberA, hereditary_partOf closed b right _ memberB⟩
    rw [left.1.opened_eq] at memberA
    rw [right.1.opened_eq] at memberB
    -- the level that is left behind pays for the lookups that both sides may need again
    have below := (Nested.child nestedA memberA).lt_card closed first sane
    have one := lookups_le_one e.1
    have other := lookups_le_one e.2
    refine ⟨holds.1, holds.2, n + 1, .child nestedA memberA, .child nestedB memberB, ?_⟩
    omega
  below fits := ⟨fits.1, fits.2.1⟩
  later extension fits := by
    obtain ⟨left, right, n, nestedA, nestedB, enough⟩ := fits
    exact ⟨left, right, n, nestedA.later extension, nestedB.later extension, enough⟩

private theorem works_unifyWithin_of_fits {parts : Finset Term}
    (closed : ∀ t ∈ parts, ∀ c ∈ t.children, c ∈ parts) (first : ∀ t ∈ parts, t.FirstOrder)
    (depth : Nat) (a b : Term) :
    Works (PartOf parts) (Fits parts depth) False (unifyWithin depth a b) [(a, b)] := by
  have tame : Tame (PartOf parts) :=
    ⟨hereditary_partOf closed, fun part => Term.BuiltFrom.quantifierFree part.1⟩
  induction depth generalizing a b with
  | zero =>
    intro s _ _ asked
    obtain ⟨-, -, n, -, -, enough⟩ := asked _ (List.mem_singleton_self _)
    omega
  | succ depth ih => exact works_unifyStep tame (descends_fits closed first depth) ih a b

private theorem mem_filterMap_of_bound? {s : Classes} {x : TypeVar} {t : Term}
    (bound : s.bound? x = some t) : t ∈ s.nodes.toList.filterMap ClassNode.bound := by
  rw [Classes.bound?_eq_bind] at bound
  obtain ⟨c, -, here⟩ := Option.bind_eq_some_iff.mp bound
  rw [Classes.boundAt] at here
  split at here
  · next node found =>
    have member : node ∈ s.nodes.toList := by
      rw [← Array.getElem?_toList] at found
      exact List.mem_of_getElem? found
    exact List.mem_filterMap.mpr ⟨node, member, here⟩
  · cases here

private theorem exists_parts (typer : Typer) {a b : Term} (firstA : a.FirstOrder)
    (firstB : b.FirstOrder) : ∃ parts : Finset Term, (∀ t ∈ parts, ∀ c ∈ t.children, c ∈ parts) ∧
      (∀ t ∈ parts, t.FirstOrder) ∧
      (∀ x t, typer.classes.bound? x = some t → t.FirstOrder → t ∈ parts) ∧
      a ∈ parts ∧ b ∈ parts ∧ parts.card ≤ typer.weight a b := by
  classical
  let given := typer.classes.nodes.toList.filterMap ClassNode.bound ++ [a, b]
  have member {t x : Term} (inside : t ∈ given) (part : x ∈ t.subterms) (first : x.FirstOrder) :
      x ∈ (Term.subtermsAll given).toFinset.filter Term.FirstOrder :=
    Finset.mem_filter.mpr ⟨List.mem_toFinset.mpr (Term.mem_subtermsAll.mpr ⟨t, inside, part⟩), first⟩
  refine ⟨(Term.subtermsAll given).toFinset.filter Term.FirstOrder, ?_, ?_, ?_, ?_, ?_, ?_⟩
  · intro t found c child
    obtain ⟨listed, first⟩ := Finset.mem_filter.mp found
    obtain ⟨u, inside, part⟩ := Term.mem_subtermsAll.mp (List.mem_toFinset.mp listed)
    exact member inside (Term.child_mem_subterms part child) (Term.BuiltFrom.child first child)
  · exact fun t found => (Finset.mem_filter.mp found).2
  · intro x t bound first
    exact member (List.mem_append_left _ (mem_filterMap_of_bound? bound))
      (Term.mem_subterms_self t) first
  · exact member (List.mem_append_right _ (by simp)) (Term.mem_subterms_self a) firstA
  · exact member (List.mem_append_right _ (by simp)) (Term.mem_subterms_self b) firstB
  · have filtered := Finset.card_filter_le (Term.subtermsAll given).toFinset Term.FirstOrder
    have distinct := List.toFinset_card_le (Term.subtermsAll given)
    have parts := Term.length_subtermsAll_le given
    have total : Term.sizeAll given =
        Term.sizeAll (typer.classes.nodes.toList.filterMap ClassNode.bound) + a.size + b.size := by
      rw [Term.sizeAll_append, Term.sizeAll, Term.sizeAll, Term.sizeAll]
      omega
    rw [Typer.weight]
    omega

theorem ends_unify {s : Session} {a b : Term} (rigid : s.typer.rigid = [])
    (sane : Sane Term.FirstOrder s.typer.classes) (firstA : a.FirstOrder) (firstB : b.FirstOrder) :
    Ends False s [(a, b)] (unify a b s) := by
  obtain ⟨parts, closed, first, bounds, inA, inB, few⟩ := exists_parts s.typer firstA firstB
  have known : Sane (PartOf parts) s.typer.classes :=
    ⟨sane.tidy, sane.acyclic,
      fun {x t} bound => by
        obtain ⟨plain, notUse⟩ := sane.bound bound
        exact ⟨⟨plain, .inr (bounds x t bound plain)⟩, notUse⟩,
      fun {x} _ => ⟨trivial, .inl ⟨x, rfl⟩⟩⟩
  refine works_unifyWithin_of_fits closed first (s.typer.depthFor a b) a b s rigid known ?_
  intro e member
  cases List.mem_singleton.mp member
  refine ⟨⟨firstA, .inr inA⟩, ⟨firstB, .inr inB⟩, 0, .given inA, .given inB, ?_⟩
  have one := lookups_le_one a
  have other := lookups_le_one b
  have square : s.typer.weight a b ≤ (s.typer.weight a b + 1) * (s.typer.weight a b + 1) :=
    Nat.le_trans (Nat.le_succ _) (Nat.le_mul_self _)
  rw [Typer.depthFor]
  dsimp only
  omega

end Typing

end TypedCalls
