import TypedCalls.Classes.Reading
import TypedCalls.Proofs.Term.Renaming

/-!
Terms that substitution leaves as they are.

In a normal term the nullable marker stands only where marking its argument puts it. Whatever is
substituted into, comes out normal (`normal_replace`), so all terms that were read are
(`Classes.normal_read`); and a normal term in which nothing is replaced stays the same
(`Normal.replace_eq`).
-/

set_option autoImplicit false

namespace TypedCalls.Term

mutual

def Normal : Term → Prop
  | .con head args => applied head args = .con head args ∧ NormalAll args
  | .use _ => True
  | .scheme _ _ body => body.Normal
  | .func _ params result => NormalAll params ∧ result.Normal

def NormalAll : List Term → Prop
  | [] => True
  | t :: ts => t.Normal ∧ NormalAll ts

end

mutual

def decideNormal : (t : Term) → Decidable t.Normal
  | .con _ args => @instDecidableAnd _ _ inferInstance (decideNormalAll args)
  | .use _ => isTrue trivial
  | .scheme _ _ body => body.decideNormal
  | .func _ params result => @instDecidableAnd _ _ (decideNormalAll params) result.decideNormal

def decideNormalAll : (ts : List Term) → Decidable (NormalAll ts)
  | [] => isTrue trivial
  | t :: ts => @instDecidableAnd _ _ t.decideNormal (decideNormalAll ts)

end

instance : DecidablePred Normal := decideNormal

private theorem normalAll_iff {ts : List Term} : NormalAll ts ↔ ∀ t ∈ ts, t.Normal := by
  induction ts with
  | nil => simp [NormalAll]
  | cons t ts ih => simp [NormalAll, ih]

theorem normal_con {head : String} {args : List Term} :
    (con head args).Normal ↔ applied head args = con head args ∧ ∀ a ∈ args, a.Normal := by
  rw [Normal, normalAll_iff]

theorem normal_func {typeParams : List TypeVar} {params : List Term} {result : Term} :
    (func typeParams params result).Normal ↔ ∀ t ∈ params ++ [result], t.Normal := by
  rw [Normal, normalAll_iff, List.forall_mem_append, List.forall_mem_singleton]

theorem normal_con_of_ne {head : String} (plain : head ≠ nullableHead) {args : List Term} :
    (con head args).Normal ↔ ∀ a ∈ args, a.Normal := by
  rw [normal_con]
  exact and_iff_right (applied_of_ne plain args)

private theorem normal_marked {t : Term} (normal : t.Normal)
    (bare : t.nullable = con nullableHead [t]) : (con nullableHead [t]).Normal :=
  normal_con.mpr ⟨(applied_nullableHead t).trans bare, List.forall_mem_singleton.mpr normal⟩

private theorem normal_nullable {t : Term} (normal : t.Normal) : t.nullable.Normal := by
  induction t using Term.induct with
  | con head args _ =>
    by_cases marked : head = nullableHead
    · rwa [nullable, if_pos marked]
    · have bare : (con head args).nullable = con nullableHead [con head args] := by
        rw [nullable, if_neg marked]
      rw [bare]
      exact normal_marked normal bare
  | use v => exact normal_marked normal rfl
  | scheme quantifier vars body ih => exact ih normal
  | func typeParams params result _ _ => exact normal_marked normal rfl

private theorem normal_applied {head : String} {args : List Term} (normal : ∀ a ∈ args, a.Normal) :
    (applied head args).Normal := by
  by_cases marked : head = nullableHead
  · subst marked
    by_cases single : ∃ a, args = [a]
    · obtain ⟨a, rfl⟩ := single
      rw [applied_nullableHead]
      exact normal_nullable (normal a (List.mem_singleton_self a))
    · have plain := applied_of_not_single single nullableHead
      rw [plain]
      exact normal_con.mpr ⟨plain, normal⟩
  · rw [applied_of_ne marked]
    exact (normal_con_of_ne marked).mpr normal

theorem normal_replace {f : TypeVar → Option Term} (images : ∀ v u, f v = some u → u.Normal)
    (shadow : List TypeVar) (t : Term) : (t.replace f shadow).Normal := by
  induction t using Term.induct generalizing shadow with
  | con head args ih =>
    rw [replace_con]
    refine normal_applied (List.forall_mem_map.mpr fun a member => ih a member shadow)
  | use v =>
    rw [replace]
    split
    · trivial
    · cases image : f v with
      | none => trivial
      | some u => exact images v u image
  | scheme quantifier vars body ih => exact ih (vars ++ shadow)
  | func typeParams params result ihParams ihResult =>
    rw [replace, replaceAll_eq_map]
    refine normal_func.mpr (List.forall_mem_append.mpr ⟨?_, ?_⟩)
    · exact List.forall_mem_map.mpr fun p member => ihParams p member _
    · exact List.forall_mem_singleton.mpr (ihResult _)

theorem normal_substWithin (γ : TypeVar → Option Term) (n : Nat) (t : Term) :
    (t.substWithin γ n).Normal := by
  have stands : ∀ v u, standsFor γ n v = some u → u.Normal := by
    induction n with
    | zero => exact fun v u image => by cases image
    | succ n ih =>
      intro v u image
      obtain ⟨w, -, rfl⟩ := Option.map_eq_some_iff.mp image
      exact normal_replace ih [] w
  exact normal_replace stands [] t

private theorem map_eq_self {g : Term → Term} {ts : List Term} (same : ∀ t ∈ ts, g t = t) :
    ts.map g = ts := by
  rw [List.map_congr_left same, List.map_id']

/-- If nothing is put in the place of the free variables of a normal term, it stays the same. -/
theorem Normal.replace_eq {f : TypeVar → Option Term} {shadow : List TypeVar} {t : Term}
    (normal : t.Normal) (kept : ∀ v ∈ t.freeVars, v ∉ shadow → (f v).getD (use v) = use v) :
    t.replace f shadow = t := by
  induction t using Term.induct generalizing shadow with
  | con head args ih =>
    obtain ⟨here, below⟩ := normal_con.mp normal
    rw [replace_con, map_eq_self fun a member => ih a member (below a member) fun v free =>
      kept v (mem_freeVars_con.mpr ⟨a, member, free⟩), here]
  | use v =>
    rw [replace]
    split
    · rfl
    · next outside => exact kept v (List.mem_singleton_self v) outside
  | scheme quantifier vars body ih =>
    have same : body.replace f (vars ++ shadow) = body := ih normal fun v free outside => by
      rw [List.mem_append, not_or] at outside
      exact kept v (mem_freeVars_scheme.mpr ⟨free, outside.1⟩) outside.2
    rw [replace, same]
  | func typeParams params result ihParams ihResult =>
    have parts := normal_func.mp normal
    have inner : ∀ p ∈ params ++ [result], ∀ v ∈ p.freeVars, v ∉ typeParams ++ shadow →
        (f v).getD (use v) = use v := by
      intro p member v free outside
      rw [List.mem_append, not_or] at outside
      exact kept v (mem_freeVars_func_iff.mpr ⟨⟨p, member, free⟩, outside.1⟩) outside.2
    rw [replace, replaceAll_eq_map, map_eq_self fun p member => ihParams p member
      (parts p (List.mem_append_left _ member)) (inner p (List.mem_append_left _ member)),
      ihResult (parts result (by simp)) (inner result (by simp))]

end TypedCalls.Term

namespace TypedCalls

theorem Classes.normal_read (s : Classes) (t : Term) : (s.read t).Normal :=
  Term.normal_substWithin s.bound? s.nodes.size t

end TypedCalls
