import TypedCalls.Proofs.Term.Capture
import TypedCalls.Proofs.Term.Renaming

/-!
Which quantifiers may stand over which terms.

A term follows a discipline if its quantifiers are all universal, or if all its quantifiers stand in
rows: universal ones first, then existential ones, and below them a term that has a shape of its
own. Both disciplines outlive renaming and the opening of binders.
-/

set_option autoImplicit false

namespace TypedCalls

namespace Term

def Bare : Term → Prop
  | .con head _ => head ≠ nullableHead
  | .func .. => True
  | .use _ | .scheme .. => False

/-- Whatever variables are put in the place of its own, such a term does not become a scheme. -/
inductive Solid : Term → Prop
  | bare {t : Term} : t.Bare → Solid t
  | marked {t : Term} : t.Bare → Solid (.con nullableHead [t])
  | markedVar (v : TypeVar) : Solid (.con nullableHead [.use v])

/-- The quantifier may stand right over the term. Below it is a solid term, or another quantifier,
perhaps marked as nullable, which is existential if the first is, and then one of its variables must
be used there. -/
inductive Covers (quantifier : Quantifier) (vars : List TypeVar) : Term → Prop
  | solid {t : Term} : t.Solid → Covers quantifier vars t
  | scheme {inner : Quantifier} {ws : List TypeVar} {body : Term} {v : TypeVar} :
      (quantifier = .some → inner = .some) → v ∈ vars → v ∈ (Term.scheme inner ws body).freeVars →
      Covers quantifier vars (.scheme inner ws body)
  | marked {inner : Quantifier} {ws : List TypeVar} {body : Term} {v : TypeVar} :
      (quantifier = .some → inner = .some) → v ∈ vars → v ∈ (Term.scheme inner ws body).freeVars →
      Covers quantifier vars (.con nullableHead [.scheme inner ws body])

variable {t : Term}

private theorem Bare.solid_nullable (bare : t.Bare) : t.nullable.Solid := by
  cases t with
  | con head args =>
    rw [Term.nullable, if_neg bare]
    exact .marked bare
  | use v => exact bare.elim
  | scheme quantifier vars body => exact bare.elim
  | func typeParams params result => exact .marked bare

private theorem Solid.nullable (solid : t.Solid) : t.nullable.Solid := by
  cases solid with
  | bare bare => exact bare.solid_nullable
  | marked bare =>
    rw [Term.nullable, if_pos rfl]
    exact .marked bare
  | markedVar v =>
    rw [Term.nullable, if_pos rfl]
    exact .markedVar v

private theorem Bare.replace (bare : t.Bare) (f : TypeVar → Option Term) (shadow : List TypeVar) :
    (t.replace f shadow).Bare := by
  cases t with
  | con head args =>
    rw [replace_con, applied_of_ne bare]
    exact bare
  | use v => exact bare.elim
  | scheme quantifier vars body => exact bare.elim
  | func typeParams params result => trivial

private theorem mem_freeVars_replace_of_hidden {f : TypeVar → Option Term} {shadow : List TypeVar}
    {v : TypeVar}
    (free : v ∈ t.freeVars) (hidden : v ∈ shadow) : v ∈ (t.replace f shadow).freeVars := by
  obtain ⟨above, place⟩ := mem_freeVars_iff_places.mp free
  rw [freeVars_replace, List.mem_flatMap]
  refine ⟨(v, above), place, ?_⟩
  rw [surfacing, if_pos hidden]
  exact List.mem_singleton_self v

section Replace

variable {f : TypeVar → Option Term} (vars : ∀ v u, f v = some u → ∃ w, u = use w)

include vars

private theorem exists_use_eq_replace (shadow : List TypeVar) (v : TypeVar) :
    ∃ w, (use v).replace f shadow = use w := by
  rw [Term.replace]
  split
  · exact ⟨v, rfl⟩
  · cases image : f v with
    | none => exact ⟨v, rfl⟩
    | some u => exact vars v u image

theorem Solid.replace (solid : t.Solid) (shadow : List TypeVar) :
    (t.replace f shadow).Solid := by
  cases solid with
  | bare bare => exact .bare (bare.replace f shadow)
  | marked bare =>
    rw [replace_con, List.map_singleton, applied_nullableHead]
    exact (bare.replace f shadow).solid_nullable
  | markedVar v =>
    obtain ⟨w, image⟩ := exists_use_eq_replace vars shadow v
    rw [replace_con, List.map_singleton, applied_nullableHead, image]
    exact .markedVar w

private theorem Covers.replace {quantifier : Quantifier} {bound : List TypeVar}
    (covers : Covers quantifier bound t) (shadow : List TypeVar) :
    Covers quantifier bound (t.replace f (bound ++ shadow)) := by
  cases covers with
  | solid solid => exact .solid (solid.replace vars _)
  | scheme order member free =>
    exact .scheme order member
      (mem_freeVars_replace_of_hidden free (List.mem_append_left shadow member))
  | marked order member free =>
    rw [replace_con, List.map_singleton, applied_nullableHead]
    refine .scheme order member ?_
    have kept := mem_freeVars_replace_of_hidden (f := f) free (List.mem_append_left shadow member)
    rwa [← freeVars_nullable] at kept

end Replace

private theorem Covers.nullable {quantifier : Quantifier} {vars : List TypeVar}
    (covers : Covers quantifier vars t) : Covers quantifier vars t.nullable := by
  cases covers with
  | solid solid => exact .solid solid.nullable
  | scheme order member free =>
    refine .scheme order member ?_
    rwa [← freeVars_nullable] at free
  | marked order member free =>
    rw [Term.nullable, if_pos rfl]
    exact .marked order member free

private theorem Bare.rename (bare : t.Bare) (f : TypeVar → TypeVar) : (t.rename f).Bare := by
  cases t with
  | con head args => exact bare
  | use v => exact bare.elim
  | scheme quantifier vars body => exact bare.elim
  | func typeParams params result => trivial

private theorem Solid.rename (solid : t.Solid) (f : TypeVar → TypeVar) : (t.rename f).Solid := by
  cases solid with
  | bare bare => exact .bare (bare.rename f)
  | marked bare => exact .marked (bare.rename f)
  | markedVar v => exact .markedVar (f v)

theorem Covers.rename {quantifier : Quantifier} {vars : List TypeVar}
    (covers : Covers quantifier vars t) (plain : t.Plain) (given : ∀ v ∈ vars, ¬v.MadeUp)
    (π : Renaming) : Covers quantifier vars (t.rename π) := by
  have used {t : Term} (plain : t.Plain) {v : TypeVar} (member : v ∈ vars) (free : v ∈ t.freeVars) :
      v ∈ (t.rename π).freeVars := by
    have renamed := List.mem_map_of_mem (f := π) free
    rwa [π.given v (given v member), ← plain.freeVars_rename] at renamed
  cases covers with
  | solid solid => exact .solid (solid.rename π)
  | scheme order member free => exact .scheme order member (used plain member free)
  | marked order member free =>
    have inner := plain_con.mp plain _ (List.mem_singleton_self _)
    exact .marked order member (used inner member free)

theorem Plain.given_of_place {t : Term} (plain : t.Plain) {v : TypeVar} {above : List TypeVar}
    (place : (v, above) ∈ t.places) : ∀ x ∈ above, ¬x.MadeUp := by
  have under {vars : List TypeVar} {places : List (TypeVar × List TypeVar)} {above : List TypeVar}
      (given : ∀ x ∈ vars, ¬x.MadeUp) (place : (v, above) ∈ placesUnder vars places)
      (inner : ∀ above, (v, above) ∈ places → ∀ x ∈ above, ¬x.MadeUp) : ∀ x ∈ above, ¬x.MadeUp := by
    obtain ⟨⟨w, below⟩, member, equal⟩ := List.mem_map.mp place
    cases equal
    exact List.forall_mem_append.mpr ⟨given, inner below (List.mem_filter.mp member).1⟩
  induction t using Term.induct generalizing above with
  | con head args ih =>
    rw [places, placesAll_eq_flatMap, List.mem_flatMap] at place
    obtain ⟨a, member, place⟩ := place
    exact ih a member (plain_con.mp plain a member) place
  | use w =>
    cases List.mem_singleton.mp place
    simp
  | scheme quantifier vars body ih => exact under plain.1 place fun _ => ih plain.2
  | func typeParams params result ihParams ihResult =>
    obtain ⟨given, parts⟩ := plain_func.mp plain
    refine under given place fun below member => ?_
    rw [placesAll_eq_flatMap, List.mem_append, List.mem_flatMap] at member
    rcases member with ⟨p, inside, member⟩ | member
    · exact ihParams p inside (parts p (List.mem_append_left _ inside)) member
    · exact ihResult (parts result (by simp)) member

end Term

/-- Which quantifiers there may be in a term: universal ones only, or both kinds, but then in rows
with the universal ones first and with a solid term below. -/
inductive Discipline
  | universal
  | universalFirst

def Discipline.Allows (δ : Discipline) : Term → Prop
  | .scheme quantifier vars body =>
    match δ with
    | .universal => quantifier = .every
    | .universalFirst => body.Covers quantifier vars
  | .con .. | .use _ | .func .. => True

private theorem Discipline.ofBinders (δ : Discipline) : Term.OfBinders δ.Allows where
  con _ _ := trivial
  use _ := trivial
  func _ := trivial
  nullable allows := by
    cases δ with
    | universal => exact allows
    | universalFirst => exact Term.Covers.nullable allows

namespace Term

variable {δ : Discipline} {t : Term}

/-- The discipline allows every quantifier in the term. -/
def Follows (δ : Discipline) (t : Term) : Prop := t.Throughout δ.Allows

theorem follows_con {head : String} {args : List Term} :
    (con head args).Follows δ ↔ ∀ a ∈ args, a.Follows δ :=
  δ.ofBinders.con_iff

theorem follows_func {typeParams : List TypeVar} {params : List Term} {result : Term} :
    (func typeParams params result).Follows δ ↔ ∀ p ∈ params ++ [result], p.Follows δ :=
  throughout_func.trans (and_iff_right trivial)

theorem Follows.fill {θ : TypeVar → Term} (follows : t.Follows δ)
    (vars : ∀ v, ∃ w, θ v = use w) : (t.fill θ).Follows δ := by
  refine δ.ofBinders.replace (fun shadow allows => ?_) follows fun v _ _ => ?_
  · cases δ with
    | universal => exact allows
    | universalFirst => exact Covers.replace (exists_use_of_image vars) allows shadow
  · obtain ⟨w, isUse⟩ := vars v
    rw [Option.getD_some, isUse]
    trivial

theorem Follows.rename (follows : t.Follows δ) (plain : t.Plain) (π : Renaming) :
    (t.rename π).Follows δ := by
  induction t using Term.induct with
  | con head args ih =>
    rw [rename_con]
    exact follows_con.mpr (List.forall_mem_map.mpr fun a member =>
      ih a member (follows_con.mp follows a member) (plain_con.mp plain a member))
  | use v => trivial
  | scheme quantifier vars body ih =>
    refine ⟨?_, ih follows.2 plain.2⟩
    cases δ with
    | universal => exact follows.1
    | universalFirst => exact Covers.rename follows.1 plain.2 plain.1 π
  | func typeParams params result ihParams ihResult =>
    obtain ⟨given, plainParts⟩ := plain_func.mp plain
    have parts := follows_func.mp follows
    rw [rename_func]
    refine follows_func.mpr (List.forall_mem_append.mpr
      ⟨List.forall_mem_map.mpr fun p member => ?_, List.forall_mem_singleton.mpr ?_⟩)
    · have inside := List.mem_append_left [result] member
      exact ihParams p member (parts p inside) (plainParts p inside)
    · exact ihResult (parts result (by simp)) (plainParts result (by simp))

end Term

end TypedCalls
