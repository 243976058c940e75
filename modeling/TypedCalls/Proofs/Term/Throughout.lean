import TypedCalls.Proofs.Term.Filling

/-!
Properties of a term and of all terms inside it.

Some properties ask something of binders only. Such a property holds throughout a term after a
replacement if it holds throughout the term and throughout what is put into it, provided that it
does not mind what the replacement makes of the body of a scheme (`OfBinders.replace`).
-/

set_option autoImplicit false

namespace TypedCalls.Term

mutual

/-- The term and every term inside it, under binders too, has the property. -/
def Throughout (P : Term → Prop) : Term → Prop
  | .con head args => P (.con head args) ∧ ThroughoutAll P args
  | .use v => P (.use v)
  | .scheme quantifier vars body => P (.scheme quantifier vars body) ∧ body.Throughout P
  | .func typeParams params result =>
    P (.func typeParams params result) ∧ ThroughoutAll P params ∧ result.Throughout P

def ThroughoutAll (P : Term → Prop) : List Term → Prop
  | [] => True
  | t :: ts => t.Throughout P ∧ ThroughoutAll P ts

end

section Throughout

variable {P Q R : Term → Prop}

theorem throughoutAll_iff {ts : List Term} : ThroughoutAll P ts ↔ ∀ t ∈ ts, t.Throughout P := by
  induction ts with
  | nil => simp [ThroughoutAll]
  | cons t ts ih => simp [ThroughoutAll, ih]

theorem throughout_con {head : String} {args : List Term} :
    (con head args).Throughout P ↔ P (con head args) ∧ ∀ a ∈ args, a.Throughout P := by
  rw [Throughout, throughoutAll_iff]

theorem throughout_func {typeParams : List TypeVar} {params : List Term} {result : Term} :
    (func typeParams params result).Throughout P ↔
      P (func typeParams params result) ∧ ∀ p ∈ params ++ [result], p.Throughout P := by
  rw [Throughout, throughoutAll_iff]
  simp [or_imp, forall_and]

theorem Throughout.imp₂ {t : Term} (first : t.Throughout P) (second : t.Throughout Q)
    (both : ∀ u, P u → Q u → R u) : t.Throughout R := by
  induction t using Term.induct with
  | con head args ih =>
    rw [throughout_con] at first second ⊢
    exact ⟨both _ first.1 second.1, fun a member =>
      ih a member (first.2 a member) (second.2 a member)⟩
  | use v => exact both _ first second
  | scheme quantifier vars body ih => exact ⟨both _ first.1 second.1, ih first.2 second.2⟩
  | func typeParams params result ihParams ihResult =>
    refine ⟨both _ first.1 second.1, throughoutAll_iff.mpr fun p member => ?_,
      ihResult first.2.2 second.2.2⟩
    exact ihParams p member (throughoutAll_iff.mp first.2.1 p member)
      (throughoutAll_iff.mp second.2.1 p member)

end Throughout

def binder : Term → List TypeVar
  | .scheme _ vars _ => vars
  | .func typeParams _ _ => typeParams
  | .con .. | .use _ => []

theorem mem_freeVars_scheme {quantifier : Quantifier} {vars : List TypeVar} {body : Term}
    {v : TypeVar} : v ∈ (scheme quantifier vars body).freeVars ↔ v ∈ body.freeVars ∧ v ∉ vars := by
  simp [freeVars]

theorem mem_freeVars_func_iff {typeParams : List TypeVar} {params : List Term} {result : Term}
    {v : TypeVar} : v ∈ (func typeParams params result).freeVars ↔
      (∃ p ∈ params ++ [result], v ∈ p.freeVars) ∧ v ∉ typeParams := by
  simp [freeVars, freeVarsAll_eq_flatMap, or_and_right, exists_or]

/-- The property asks something of binders only. Of a function type it minds the type parameters
alone, and of a scheme it does not mind that its body is marked as nullable. -/
structure OfBinders (P : Term → Prop) : Prop where
  con : ∀ head args, P (.con head args)
  use : ∀ v, P (.use v)
  func : ∀ {typeParams params result params' result'},
    P (.func typeParams params result) → P (.func typeParams params' result')
  nullable : ∀ {quantifier vars body},
    P (.scheme quantifier vars body) → P (.scheme quantifier vars body.nullable)

namespace OfBinders

variable {P : Term → Prop} (asks : OfBinders P)

include asks

theorem con_iff {head : String} {args : List Term} :
    (Term.con head args).Throughout P ↔ ∀ a ∈ args, a.Throughout P :=
  throughout_con.trans (and_iff_right (asks.con head args))

private theorem marked {t : Term} (all : t.Throughout P) : t.nullable.Throughout P := by
  induction t using Term.induct with
  | con head args =>
    rw [Term.nullable]
    split
    · exact all
    · exact asks.con_iff.mpr (List.forall_mem_singleton.mpr all)
  | use v => exact asks.con_iff.mpr (List.forall_mem_singleton.mpr all)
  | scheme quantifier vars body ih => exact ⟨asks.nullable all.1, ih all.2⟩
  | func typeParams params result => exact asks.con_iff.mpr (List.forall_mem_singleton.mpr all)

private theorem applied {head : String} {args : List Term} (all : ∀ a ∈ args, a.Throughout P) :
    (Term.applied head args).Throughout P := by
  unfold Term.applied
  split
  · next a =>
    split
    · exact asks.marked (all a (List.mem_singleton_self a))
    · exact asks.con_iff.mpr all
  · exact asks.con_iff.mpr all

theorem replace {f : TypeVar → Option Term}
    (body : ∀ {quantifier vars t} shadow, P (.scheme quantifier vars t) →
      P (.scheme quantifier vars (t.replace f (vars ++ shadow))))
    {shadow : List TypeVar} {t : Term} (all : t.Throughout P)
    (images : ∀ v ∈ t.freeVars, v ∉ shadow → ((f v).getD (.use v)).Throughout P) :
    (t.replace f shadow).Throughout P := by
  induction t using Term.induct generalizing shadow with
  | con head args ih =>
    rw [replace_con]
    refine asks.applied (List.forall_mem_map.mpr fun a member => ?_)
    exact ih a member (asks.con_iff.mp all a member) fun v free =>
      images v (mem_freeVars_con.mpr ⟨a, member, free⟩)
  | use v =>
    rw [Term.replace]
    split
    · exact all
    · next seen => exact images v (List.mem_singleton_self v) seen
  | scheme quantifier vars t ih =>
    refine ⟨body shadow all.1, ih all.2 fun v free seen => ?_⟩
    obtain ⟨unbound, outside⟩ := not_or.mp (mt List.mem_append.mpr seen)
    exact images v (mem_freeVars_scheme.mpr ⟨free, unbound⟩) outside
  | func typeParams params result ihParams ihResult =>
    obtain ⟨here, parts⟩ := throughout_func.mp all
    have inner : ∀ p ∈ params ++ [result], ∀ v ∈ p.freeVars, v ∉ typeParams ++ shadow →
        ((f v).getD (.use v)).Throughout P := by
      intro p member v free seen
      obtain ⟨unbound, outside⟩ := not_or.mp (mt List.mem_append.mpr seen)
      exact images v (mem_freeVars_func_iff.mpr ⟨⟨p, member, free⟩, unbound⟩) outside
    rw [Term.replace, replaceAll_eq_map]
    refine throughout_func.mpr ⟨asks.func here, List.forall_mem_append.mpr
      ⟨List.forall_mem_map.mpr fun p member => ?_, List.forall_mem_singleton.mpr ?_⟩⟩
    · have inside := List.mem_append_left [result] member
      exact ihParams p member (parts p inside) (inner p inside)
    · exact ihResult (parts result (by simp)) (inner result (by simp))

end OfBinders

theorem exists_use_of_image {θ : TypeVar → Term} (vars : ∀ v, ∃ w, θ v = use w) (v : TypeVar)
    (u : Term) (image : some (θ v) = some u) : ∃ w, u = use w := by
  obtain ⟨w, isUse⟩ := vars v
  exact ⟨w, (Option.some.inj image).symm.trans isUse⟩

end TypedCalls.Term
