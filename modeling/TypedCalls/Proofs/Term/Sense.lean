import TypedCalls.Proofs.Term.Filling
import TypedCalls.Standard.Types

/-!
What payloads can tell of types.

A payload of a function type is a function, whatever the parameters, so two function types may unify
without being equal. The sense of a term forgets what stands inside of function types, and puts terms
in the place of variables. Substitution goes through it (`sense_fill`).

Values never have schemes in their types. `SchemeFree` is kept by everything that is done to types.
-/

set_option autoImplicit false

namespace TypedCalls.Term

def someFunction : Term := .func [] [] Standard.nothing

def someScheme : Term := .scheme .every [] (.con nullableHead [])

mutual

def sense (θ : TypeVar → Term) : Term → Term
  | .con head args => applied head (senseAll θ args)
  | .use v => θ v
  | .scheme .. => someScheme
  | .func .. => someFunction

def senseAll (θ : TypeVar → Term) : List Term → List Term
  | [] => []
  | t :: ts => sense θ t :: senseAll θ ts

end

section Sense

variable {θ η : TypeVar → Term}

theorem sense_con (θ : TypeVar → Term) (head : String) (args : List Term) :
    sense θ (.con head args) = applied head (args.map (sense θ)) := by
  have all : ∀ ts, senseAll θ ts = ts.map (sense θ) := by
    intro ts
    induction ts with
    | nil => rfl
    | cons t ts ih => rw [senseAll, ih, List.map_cons]
  rw [sense, all]

@[simp] theorem sense_use (θ : TypeVar → Term) (v : TypeVar) : sense θ (.use v) = θ v := by
  rw [sense]

@[simp] theorem sense_func (θ : TypeVar → Term) (vs : List TypeVar) (ps : List Term) (r : Term) :
    sense θ (.func vs ps r) = someFunction := by
  rw [sense]

@[simp] theorem sense_scheme (θ : TypeVar → Term) (quantifier : Quantifier) (vs : List TypeVar)
    (body : Term) : sense θ (.scheme quantifier vs body) = someScheme := by
  rw [sense]

@[simp] theorem sense_named (θ : TypeVar → Term) (head : String) :
    sense θ (.named head) = .named head := by
  rw [sense_con]
  rfl

theorem sense_con_of_ne (θ : TypeVar → Term) {head : String} (plain : head ≠ nullableHead)
    (args : List Term) : sense θ (.con head args) = .con head (args.map (sense θ)) := by
  rw [sense_con, applied_of_ne plain]

theorem sense_congr {t : Term} (agree : ∀ v ∈ t.freeVars, θ v = η v) :
    sense θ t = sense η t := by
  induction t using Term.induct with
  | con head args ih =>
    rw [sense_con, sense_con]
    congr 1
    apply List.map_congr_left
    intro a member
    exact ih a member fun v free => agree v (mem_freeVars_con.mpr ⟨a, member, free⟩)
  | use v => simpa using agree v (by simp [freeVars])
  | scheme quantifier vars body _ => simp
  | func typeParams params result _ _ => simp

private theorem nullable_applied_nullableHead (args : List Term) :
    (applied nullableHead args).nullable = applied nullableHead args := by
  unfold applied
  split
  · rw [if_pos rfl, nullable_nullable]
  · rw [nullable, if_pos rfl]

theorem sense_nullable (θ : TypeVar → Term) (t : Term) :
    sense θ t.nullable = (sense θ t).nullable := by
  cases t with
  | con head args =>
    rw [nullable]
    split
    · next marked =>
      subst marked
      rw [sense_con, nullable_applied_nullableHead]
    · rw [sense_con, List.map_singleton, applied_nullableHead]
  | use v => rw [nullable, sense_con, List.map_singleton, applied_nullableHead]
  | scheme quantifier vars body => rw [nullable, sense_scheme, sense_scheme]; rfl
  | func typeParams params result =>
    rw [nullable, sense_con, List.map_singleton, applied_nullableHead]

private theorem sense_applied (θ : TypeVar → Term) (head : String) (args : List Term) :
    sense θ (applied head args) = applied head (args.map (sense θ)) := by
  by_cases single : ∃ a, args = [a]
  · obtain ⟨a, rfl⟩ := single
    by_cases marked : head = nullableHead
    · subst marked
      rw [applied_nullableHead, sense_nullable, List.map_singleton, applied_nullableHead]
    · rw [applied_of_ne marked, sense_con]
  · have plain : applied head args = .con head args := by
      unfold applied
      split
      · next a => exact absurd ⟨a, rfl⟩ single
      · rfl
    rw [plain, sense_con]

theorem sense_fill (θ η : TypeVar → Term) (t : Term) :
    sense θ (t.fill η) = sense (fun v => sense θ (η v)) t := by
  induction t using Term.induct with
  | con head args ih =>
    rw [fill_con, sense_applied, sense_con, List.map_map]
    congr 1
    apply List.map_congr_left
    intro a member
    exact ih a member
  | use v => rw [fill_use, sense_use]
  | scheme quantifier vars body _ => rw [fill, replace, sense_scheme, sense_scheme]
  | func typeParams params result _ _ => rw [fill, replace, sense_func, sense_func]

end Sense

/-! Terms without schemes. -/

mutual

def SchemeFree : Term → Prop
  | .con _ args => SchemeFreeAll args
  | .use _ => True
  | .scheme .. => False
  | .func _ params result => SchemeFreeAll params ∧ result.SchemeFree

def SchemeFreeAll : List Term → Prop
  | [] => True
  | t :: ts => t.SchemeFree ∧ SchemeFreeAll ts

end

mutual

def decideSchemeFree : (t : Term) → Decidable t.SchemeFree
  | .con _ args => decideSchemeFreeAll args
  | .use _ => isTrue trivial
  | .scheme .. => isFalse id
  | .func _ params result =>
    @instDecidableAnd _ _ (decideSchemeFreeAll params) result.decideSchemeFree

def decideSchemeFreeAll : (ts : List Term) → Decidable (SchemeFreeAll ts)
  | [] => isTrue trivial
  | t :: ts => @instDecidableAnd _ _ t.decideSchemeFree (decideSchemeFreeAll ts)

end

instance : DecidablePred SchemeFree := decideSchemeFree

private theorem schemeFreeAll_iff {ts : List Term} : SchemeFreeAll ts ↔ ∀ t ∈ ts, t.SchemeFree := by
  induction ts with
  | nil => simp [SchemeFreeAll]
  | cons t ts ih => simp [SchemeFreeAll, ih]

theorem schemeFree_con {head : String} {args : List Term} :
    (con head args).SchemeFree ↔ ∀ a ∈ args, a.SchemeFree := by
  rw [SchemeFree, schemeFreeAll_iff]

theorem schemeFree_func {vs : List TypeVar} {ps : List Term} {r : Term} :
    (func vs ps r).SchemeFree ↔ ∀ t ∈ ps ++ [r], t.SchemeFree := by
  rw [SchemeFree, schemeFreeAll_iff, List.forall_mem_append, List.forall_mem_singleton]

private theorem schemeFree_nullable {t : Term} (free : t.SchemeFree) : t.nullable.SchemeFree := by
  cases t with
  | con head args =>
    rw [nullable]
    split
    · exact free
    · exact schemeFree_con.mpr (by simpa using free)
  | use v => exact schemeFree_con.mpr (by simp [SchemeFree])
  | scheme quantifier vars body => exact free.elim
  | func typeParams params result => exact schemeFree_con.mpr (by simpa using free)

private theorem schemeFree_applied {head : String} {args : List Term}
    (free : ∀ a ∈ args, a.SchemeFree) : (applied head args).SchemeFree := by
  unfold applied
  split
  · next a =>
    split
    · exact schemeFree_nullable (free a (List.mem_singleton_self a))
    · exact schemeFree_con.mpr free
  · exact schemeFree_con.mpr free

private theorem schemeFree_replace {f : TypeVar → Option Term} {shadow : List TypeVar} {t : Term}
    (free : t.SchemeFree) (images : ∀ v u, f v = some u → u.SchemeFree) :
    (t.replace f shadow).SchemeFree := by
  induction t using Term.induct generalizing shadow with
  | con head args ih =>
    rw [replace_con]
    refine schemeFree_applied fun a member => ?_
    obtain ⟨b, part, rfl⟩ := List.mem_map.mp member
    exact ih b part (schemeFree_con.mp free b part)
  | use v =>
    rw [replace]
    split
    · exact True.intro
    · cases image : f v with
      | none => exact True.intro
      | some u => exact images v u image
  | scheme quantifier vars body _ => exact free.elim
  | func typeParams params result ihParams ihResult =>
    rw [replace, replaceAll_eq_map]
    have parts := schemeFree_func.mp free
    refine schemeFree_func.mpr (List.forall_mem_append.mpr ⟨fun p member => ?_, ?_⟩)
    · obtain ⟨q, part, rfl⟩ := List.mem_map.mp member
      exact ihParams q part (parts q (by simp [part]))
    · exact List.forall_mem_singleton.mpr (ihResult (parts result (by simp)))

theorem schemeFree_substWithin {γ : TypeVar → Option Term} {t : Term} (free : t.SchemeFree)
    (images : ∀ v u, γ v = some u → u.SchemeFree) (n : Nat) : (t.substWithin γ n).SchemeFree := by
  have stands : ∀ v u, standsFor γ n v = some u → u.SchemeFree := by
    induction n with
    | zero => exact fun v u image => by cases image
    | succ n ih =>
      intro v u image
      obtain ⟨w, bound, rfl⟩ := Option.map_eq_some_iff.mp image
      exact schemeFree_replace (images v w bound) ih
  exact schemeFree_replace free stands

end TypedCalls.Term
