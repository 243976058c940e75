import Mathlib.Tactic.Common
import TypedCalls.Term.Substitution

/-!
Filling the variables of a term.

`fill θ t` puts `θ v` in the place of every free variable `v` of `t`; every replacement is a filling
(`replace_nil_eq_fill`). On terms without quantifiers filling twice is filling once with the filled
terms (`fill_fill`), nullable markers included. Where no nullable marker collapses, as in first-order
terms, filling keeps the shape of a term, so a variable's term is smaller than that of any other term
the variable occurs in (`Intact.size_lt_size_fill`).
-/

set_option autoImplicit false

namespace TypedCalls.Term

mutual

def BuiltFrom (allowed : String → Prop) : Term → Prop
  | .con head args => allowed head ∧ BuiltFromAll allowed args
  | .use _ => True
  | .scheme .. => False
  | .func typeParams params result =>
    typeParams = [] ∧ BuiltFromAll allowed params ∧ result.BuiltFrom allowed

def BuiltFromAll (allowed : String → Prop) : List Term → Prop
  | [] => True
  | t :: ts => t.BuiltFrom allowed ∧ BuiltFromAll allowed ts

end

/-- No quantifier and no type parameter of a function; nullable markers are allowed. -/
def QuantifierFree : Term → Prop := BuiltFrom fun _ => True

/-- No quantifier, no type parameter of a function and no nullable marker. -/
def FirstOrder : Term → Prop := BuiltFrom fun head => head ≠ nullableHead

section Building

variable {allowed : String → Prop}

private theorem builtFromAll_iff {ts : List Term} :
    BuiltFromAll allowed ts ↔ ∀ t ∈ ts, t.BuiltFrom allowed := by
  induction ts with
  | nil => simp [BuiltFromAll]
  | cons t ts ih => simp [BuiltFromAll, ih]

theorem builtFrom_con {head : String} {args : List Term} :
    (con head args).BuiltFrom allowed ↔ allowed head ∧ ∀ a ∈ args, a.BuiltFrom allowed := by
  rw [BuiltFrom, builtFromAll_iff]

theorem builtFrom_func {typeParams : List TypeVar} {params : List Term} {result : Term} :
    (func typeParams params result).BuiltFrom allowed ↔
      typeParams = [] ∧ ∀ p ∈ params ++ [result], p.BuiltFrom allowed := by
  rw [BuiltFrom, builtFromAll_iff]
  simp [or_imp, forall_and]

@[elab_as_elim]
theorem BuiltFrom.induction {motive : Term → Prop}
    (con : ∀ head args, allowed head → (∀ a ∈ args, a.BuiltFrom allowed ∧ motive a) →
      motive (.con head args))
    (use : ∀ v, motive (.use v))
    (func : ∀ params result, (∀ p ∈ params ++ [result], p.BuiltFrom allowed ∧ motive p) →
      motive (.func [] params result))
    {t : Term} (built : t.BuiltFrom allowed) : motive t := by
  induction t using Term.induct with
  | con head args ih =>
    obtain ⟨fits, parts⟩ := builtFrom_con.mp built
    exact con head args fits fun a member => ⟨parts a member, ih a member (parts a member)⟩
  | use v => exact use v
  | scheme quantifier vars body => exact absurd built (by simp [BuiltFrom])
  | func typeParams params result ihParams ihResult =>
    obtain ⟨rfl, parts⟩ := builtFrom_func.mp built
    refine func params result fun p member => ⟨parts p member, ?_⟩
    rcases List.mem_append.mp member with inParams | isResult
    · exact ihParams p inParams (parts p member)
    · obtain rfl := List.mem_singleton.mp isResult
      exact ihResult (parts p member)

theorem BuiltFrom.quantifierFree {allowed : String → Prop} {t : Term}
    (built : t.BuiltFrom allowed) : t.QuantifierFree := by
  refine BuiltFrom.induction ?_ ?_ ?_ built
  · intro head args _ parts
    exact builtFrom_con.mpr ⟨trivial, fun a member => (parts a member).2⟩
  · intro v
    trivial
  · intro params result parts
    exact builtFrom_func.mpr ⟨rfl, fun p member => (parts p member).2⟩

end Building

theorem mem_freeVars_con {head : String} {args : List Term} {v : TypeVar} :
    v ∈ (con head args).freeVars ↔ ∃ a ∈ args, v ∈ a.freeVars := by
  simp [freeVars, freeVarsAll_eq_flatMap]

theorem mem_freeVars_func {params : List Term} {result : Term} {v : TypeVar} :
    v ∈ (func [] params result).freeVars ↔ ∃ p ∈ params ++ [result], v ∈ p.freeVars := by
  simp [freeVars, freeVarsAll_eq_flatMap, or_and_right, exists_or]

/-! Replacing. -/

theorem replace_con (f : TypeVar → Option Term) (shadow : List TypeVar) (head : String)
    (args : List Term) :
    replace f shadow (con head args) = applied head (args.map (replace f shadow)) := by
  rw [replace, replaceAll_eq_map]

theorem applied_of_ne {head : String} (plain : head ≠ nullableHead) (args : List Term) :
    applied head args = con head args := by
  unfold applied
  split
  · rw [if_neg plain]
  · rfl

theorem applied_nullableHead (a : Term) : applied nullableHead [a] = a.nullable := by
  simp [applied]

theorem applied_of_not_single {args : List Term} (several : ¬∃ a, args = [a]) (head : String) :
    applied head args = con head args := by
  unfold applied
  split
  · next a => exact absurd ⟨a, rfl⟩ several
  · rfl

theorem replace_congr {f g : TypeVar → Option Term} {shadow : List TypeVar} {t : Term}
    (agree : ∀ v ∈ t.freeVars, v ∉ shadow → (f v).getD (use v) = (g v).getD (use v)) :
    replace f shadow t = replace g shadow t := by
  induction t using Term.induct generalizing shadow with
  | con head args ih =>
    rw [replace_con, replace_con]
    congr 1
    apply List.map_congr_left
    intro a member
    exact ih a member fun v free => agree v (mem_freeVars_con.mpr ⟨a, member, free⟩)
  | use v =>
    by_cases hidden : v ∈ shadow
    · simp [replace, hidden]
    · simpa [replace, hidden] using agree v (by simp [freeVars]) hidden
  | scheme quantifier vars body ih =>
    rw [replace, replace]
    congr 1
    refine ih fun v free visible => agree v ?_ ?_
    · simp_all [freeVars]
    · simp_all
  | func typeParams params result ihParams ihResult =>
    rw [replace, replace, replaceAll_eq_map, replaceAll_eq_map]
    have outer : ∀ p ∈ params ++ [result], ∀ v ∈ p.freeVars, v ∉ typeParams ++ shadow →
        (f v).getD (use v) = (g v).getD (use v) := by
      intro p member v free visible
      refine agree v ?_ (by simp_all)
      have inside : v ∈ freeVarsAll params ++ result.freeVars := by
        rcases List.mem_append.mp member with inParams | isResult
        · rw [freeVarsAll_eq_flatMap]
          exact List.mem_append_left _ (List.mem_flatMap.mpr ⟨p, inParams, free⟩)
        · rw [List.mem_singleton.mp isResult] at free
          exact List.mem_append_right _ free
      rw [freeVars, List.mem_filter]
      exact ⟨inside, by simp_all⟩
    congr 1
    · apply List.map_congr_left
      intro p member
      exact ihParams p member (outer p (by simp [member]))
    · exact ihResult (outer result (by simp))

theorem nullable_nullable (t : Term) : t.nullable.nullable = t.nullable :=
  nullable_of_isKnownNullable _ (isKnownNullable_nullable t)

theorem replace_nullable (f : TypeVar → Option Term) (shadow : List TypeVar) (t : Term) :
    replace f shadow t.nullable = (replace f shadow t).nullable := by
  induction t using Term.induct generalizing shadow with
  | con head args ih =>
    by_cases marked : head = nullableHead
    · subst marked
      have unchanged : (con nullableHead args).nullable = con nullableHead args := by
        simp [nullable]
      rw [unchanged, replace_con]
      cases args with
      | nil => simp [applied, nullable]
      | cons a rest =>
        cases rest with
        | nil => rw [List.map_singleton, applied_nullableHead, nullable_nullable]
        | cons b rest => simp [applied, nullable]
    · have wrapped : (con head args).nullable = con nullableHead [con head args] := by
        simp [nullable, marked]
      rw [wrapped, replace_con, List.map_singleton, applied_nullableHead]
  | use v => rw [nullable, replace_con, List.map_singleton, applied_nullableHead]
  | scheme quantifier vars body ih => rw [nullable, replace, ih, replace, nullable]
  | func typeParams params result =>
    rw [nullable, replace_con, List.map_singleton, applied_nullableHead]

private theorem replace_applied (f : TypeVar → Option Term) (shadow : List TypeVar) (head : String)
    (args : List Term) :
    replace f shadow (applied head args) = applied head (args.map (replace f shadow)) := by
  by_cases marked : head = nullableHead
  · subst marked
    match args with
    | [] =>
      rw [applied, replace_con]
      simp
    | [a] => rw [applied_nullableHead, replace_nullable, List.map_singleton, applied_nullableHead]
    | a :: b :: rest =>
      rw [applied, replace_con]
      simp
  · rw [applied_of_ne marked, replace_con]

/-! Filling. -/

def fill (θ : TypeVar → Term) (t : Term) : Term := replace (fun v => some (θ v)) [] t

theorem replace_nil_eq_fill (f : TypeVar → Option Term) (t : Term) :
    replace f [] t = t.fill fun v => (f v).getD (use v) :=
  replace_congr fun _ _ _ => rfl

@[simp] theorem fill_use (θ : TypeVar → Term) (v : TypeVar) : (use v).fill θ = θ v := by
  simp [fill, replace]

theorem fill_con (θ : TypeVar → Term) (head : String) (args : List Term) :
    (con head args).fill θ = applied head (args.map (fill θ)) :=
  replace_con _ _ head args

theorem fill_con_of_ne (θ : TypeVar → Term) {head : String} (plain : head ≠ nullableHead)
    (args : List Term) : (con head args).fill θ = con head (args.map (fill θ)) := by
  rw [fill_con, applied_of_ne plain]

theorem fill_func (θ : TypeVar → Term) (params : List Term) (result : Term) :
    (func [] params result).fill θ = func [] (params.map (fill θ)) (result.fill θ) := by
  rw [fill, replace, replaceAll_eq_map]
  rfl

theorem fill_congr {θ η : TypeVar → Term} {t : Term} (agree : ∀ v ∈ t.freeVars, θ v = η v) :
    t.fill θ = t.fill η :=
  replace_congr fun v free _ => agree v free

private theorem fill_applied (θ : TypeVar → Term) (head : String) (args : List Term) :
    (applied head args).fill θ = applied head (args.map (fill θ)) :=
  replace_applied _ _ head args

theorem fill_fill (θ η : TypeVar → Term) {t : Term} (free : t.QuantifierFree) :
    (t.fill η).fill θ = t.fill fun v => (η v).fill θ := by
  refine BuiltFrom.induction ?_ ?_ ?_ free
  · intro head args _ parts
    rw [fill_con, fill_applied, fill_con, List.map_map]
    congr 1
    apply List.map_congr_left
    intro a member
    exact (parts a member).2
  · intro v
    simp
  · intro params result parts
    rw [fill_func, fill_func, fill_func, List.map_map]
    congr 1
    · apply List.map_congr_left
      intro p member
      exact (parts p (by simp [member])).2
    · exact (parts result (by simp)).2

private theorem builtFrom_nullable {allowed : String → Prop} (marker : allowed nullableHead)
    {t : Term} (built : t.BuiltFrom allowed) : t.nullable.BuiltFrom allowed := by
  have wrapped : (con nullableHead [t]).BuiltFrom allowed :=
    builtFrom_con.mpr ⟨marker, fun a member => List.mem_singleton.mp member ▸ built⟩
  cases t with
  | con head args =>
    rw [nullable]
    split
    · exact built
    · exact wrapped
  | use v => exact wrapped
  | scheme quantifier vars body => exact absurd built (by simp [BuiltFrom])
  | func typeParams params result => exact wrapped

private theorem builtFrom_applied {allowed : String → Prop} {head : String} {args : List Term}
    (built : (con head args).BuiltFrom allowed) : (applied head args).BuiltFrom allowed := by
  obtain ⟨fits, parts⟩ := builtFrom_con.mp built
  unfold applied
  split
  · next a =>
    split
    · next marked =>
      subst marked
      exact builtFrom_nullable fits (parts a (by simp))
    · exact built
  · exact built

theorem builtFrom_fill {allowed : String → Prop} {θ : TypeVar → Term} {t : Term}
    (built : t.BuiltFrom allowed) (images : ∀ v ∈ t.freeVars, (θ v).BuiltFrom allowed) :
    (t.fill θ).BuiltFrom allowed := by
  refine BuiltFrom.induction (motive := fun t => (∀ v ∈ t.freeVars, (θ v).BuiltFrom allowed) →
    (t.fill θ).BuiltFrom allowed) ?_ ?_ ?_ built images
  · intro head args fits parts images
    rw [fill_con]
    refine builtFrom_applied (builtFrom_con.mpr ⟨fits, fun b member => ?_⟩)
    obtain ⟨a, inside, rfl⟩ := List.mem_map.mp member
    exact (parts a inside).2 fun v free => images v (mem_freeVars_con.mpr ⟨a, inside, free⟩)
  · intro v images
    rw [fill_use]
    exact images v (by simp [freeVars])
  · intro params result parts images
    rw [fill_func, builtFrom_func]
    refine ⟨rfl, fun q member => ?_⟩
    have mapped : q ∈ (params ++ [result]).map (fill θ) := by simpa using member
    obtain ⟨p, inside, rfl⟩ := List.mem_map.mp mapped
    exact (parts p inside).2 fun v free => images v (mem_freeVars_func.mpr ⟨p, inside, free⟩)

theorem freeVars_nullable (t : Term) : t.nullable.freeVars = t.freeVars := by
  induction t using Term.induct with
  | con head args =>
    rw [nullable]
    split
    · rfl
    · simp [freeVars, freeVarsAll]
  | use v => simp [nullable, freeVars, freeVarsAll]
  | scheme quantifier vars body ih => rw [nullable, freeVars, ih, freeVars]
  | func typeParams params result => simp [nullable, freeVars, freeVarsAll]

theorem freeVars_applied (head : String) (args : List Term) :
    (applied head args).freeVars = (con head args).freeVars := by
  unfold applied
  split
  · split
    · simp [freeVars_nullable, freeVars, freeVarsAll]
    · rfl
  · rfl

theorem mem_freeVars_fill {θ : TypeVar → Term} {t : Term} (free : t.QuantifierFree)
    {w : TypeVar} : w ∈ (t.fill θ).freeVars ↔ ∃ v ∈ t.freeVars, w ∈ (θ v).freeVars := by
  refine BuiltFrom.induction ?_ ?_ ?_ free
  · intro head args _ parts
    rw [fill_con, freeVars_applied, mem_freeVars_con]
    constructor
    · rintro ⟨b, member, inside⟩
      obtain ⟨a, mem, rfl⟩ := List.mem_map.mp member
      obtain ⟨v, hv, hw⟩ := (parts a mem).2.mp inside
      exact ⟨v, mem_freeVars_con.mpr ⟨a, mem, hv⟩, hw⟩
    · rintro ⟨v, hv, hw⟩
      obtain ⟨a, mem, inside⟩ := mem_freeVars_con.mp hv
      exact ⟨a.fill θ, List.mem_map.mpr ⟨a, mem, rfl⟩, (parts a mem).2.mpr ⟨v, inside, hw⟩⟩
  · intro v
    simp [freeVars]
  · intro params result parts
    have children : params.map (fill θ) ++ [result.fill θ] =
        (params ++ [result]).map (fill θ) := by simp
    rw [fill_func, mem_freeVars_func, children]
    constructor
    · rintro ⟨q, member, inside⟩
      obtain ⟨p, mem, rfl⟩ := List.mem_map.mp member
      obtain ⟨v, hv, hw⟩ := (parts p mem).2.mp inside
      exact ⟨v, mem_freeVars_func.mpr ⟨p, mem, hv⟩, hw⟩
    · rintro ⟨v, hv, hw⟩
      obtain ⟨p, mem, inside⟩ := mem_freeVars_func.mp hv
      exact ⟨p.fill θ, List.mem_map.mpr ⟨p, mem, rfl⟩, (parts p mem).2.mpr ⟨v, inside, hw⟩⟩

/-! The children of a term without quantifiers. -/

def children : Term → List Term
  | .con _ args => args
  | .use _ => []
  | .scheme .. => []
  | .func _ params result => params ++ [result]

theorem BuiltFrom.child {allowed : String → Prop} {t : Term} (built : t.BuiltFrom allowed)
    {c : Term} (member : c ∈ t.children) : c.BuiltFrom allowed := by
  cases t with
  | con head args => exact (builtFrom_con.mp built).2 c member
  | use v => cases member
  | scheme quantifier vars body => cases member
  | func typeParams params result => exact (builtFrom_func.mp built).2 c member

theorem BuiltFrom.mem_freeVars_iff {allowed : String → Prop} {t : Term}
    (built : t.BuiltFrom allowed) (notUse : ∀ w, t ≠ use w) {v : TypeVar} :
    v ∈ t.freeVars ↔ ∃ c ∈ t.children, v ∈ c.freeVars := by
  cases t with
  | con head args => exact mem_freeVars_con
  | use w => exact absurd rfl (notUse w)
  | scheme quantifier vars body => exact absurd built (by simp [BuiltFrom])
  | func typeParams params result =>
    obtain ⟨rfl, -⟩ := builtFrom_func.mp built
    exact mem_freeVars_func

private theorem size_lt_of_mem_children {t c : Term} (member : c ∈ t.children) :
    c.size < t.size := by
  cases t with
  | con head args =>
    have part : c.size ≤ sizeAll args := size_le_sizeAll member
    rw [size]
    omega
  | use v => cases member
  | scheme quantifier vars body => cases member
  | func typeParams params result =>
    rw [size]
    rcases List.mem_append.mp member with inParams | isResult
    · have part := size_le_sizeAll inParams
      omega
    · rw [List.mem_singleton.mp isResult]
      omega

/-! Fillings that leave every nullable marker in its place. -/

mutual

def Intact (θ : TypeVar → Term) : Term → Prop
  | .con head args =>
    applied head (args.map (fill θ)) = .con head (args.map (fill θ)) ∧ IntactAll θ args
  | .use _ => True
  | .scheme .. => False
  | .func typeParams params result => typeParams = [] ∧ IntactAll θ params ∧ result.Intact θ

def IntactAll (θ : TypeVar → Term) : List Term → Prop
  | [] => True
  | t :: ts => t.Intact θ ∧ IntactAll θ ts

end

private theorem intactAll_iff {θ : TypeVar → Term} {ts : List Term} :
    IntactAll θ ts ↔ ∀ t ∈ ts, t.Intact θ := by
  induction ts with
  | nil => simp [IntactAll]
  | cons t ts ih => simp [IntactAll, ih]

theorem intact_con {θ : TypeVar → Term} {head : String} {args : List Term} :
    (con head args).Intact θ ↔
      (con head args).fill θ = con head (args.map (fill θ)) ∧ ∀ a ∈ args, a.Intact θ := by
  rw [Intact, intactAll_iff, fill_con]

theorem intact_func {θ : TypeVar → Term} {typeParams : List TypeVar} {params : List Term}
    {result : Term} : (func typeParams params result).Intact θ ↔
      typeParams = [] ∧ ∀ p ∈ params ++ [result], p.Intact θ := by
  rw [Intact, intactAll_iff]
  simp [or_imp, forall_and]

theorem FirstOrder.intact {t : Term} (first : t.FirstOrder) (θ : TypeVar → Term) : t.Intact θ := by
  refine BuiltFrom.induction ?_ ?_ ?_ first
  · intro head args plain parts
    exact intact_con.mpr ⟨fill_con_of_ne θ plain args, fun a member => (parts a member).2⟩
  · intro v
    trivial
  · intro params result parts
    exact intact_func.mpr ⟨rfl, fun p member => (parts p member).2⟩

namespace Intact

variable {θ : TypeVar → Term} {t c : Term}

theorem child (intact : t.Intact θ) (member : c ∈ t.children) : c.Intact θ := by
  cases t with
  | con head args => exact (intact_con.mp intact).2 c member
  | use v => cases member
  | scheme quantifier vars body => cases member
  | func typeParams params result => exact (intact_func.mp intact).2 c member

theorem quantifierFree (intact : t.Intact θ) : t.QuantifierFree := by
  induction t using Term.induct with
  | con head args ih =>
    exact builtFrom_con.mpr ⟨trivial, fun a member => ih a member (intact.child member)⟩
  | use v => trivial
  | scheme quantifier vars body => exact absurd intact (by simp [Intact])
  | func typeParams params result ihParams ihResult =>
    obtain ⟨rfl, parts⟩ := intact_func.mp intact
    refine builtFrom_func.mpr ⟨rfl, fun p member => ?_⟩
    rcases List.mem_append.mp member with inParams | isResult
    · exact ihParams p inParams (parts p member)
    · obtain rfl := List.mem_singleton.mp isResult
      exact ihResult (parts p member)

theorem children_fill (intact : t.Intact θ) (notUse : ∀ w, t ≠ use w) :
    (t.fill θ).children = t.children.map (fill θ) := by
  cases t with
  | con head args =>
    rw [(intact_con.mp intact).1]
    rfl
  | use w => exact absurd rfl (notUse w)
  | scheme quantifier vars body => exact absurd intact (by simp [Intact])
  | func typeParams params result =>
    obtain ⟨rfl, -⟩ := intact_func.mp intact
    rw [fill_func]
    simp [children]

theorem size_fill_child_lt (intact : t.Intact θ) (notUse : ∀ w, t ≠ use w)
    (member : c ∈ t.children) : (c.fill θ).size < (t.fill θ).size := by
  apply size_lt_of_mem_children
  rw [intact.children_fill notUse]
  exact List.mem_map.mpr ⟨c, member, rfl⟩

theorem size_le_size_fill {t : Term} (intact : t.Intact θ) {v : TypeVar} (free : v ∈ t.freeVars) :
    (θ v).size ≤ (t.fill θ).size := by
  by_cases isUse : ∃ w, t = use w
  · obtain ⟨w, rfl⟩ := isUse
    exact Nat.le_of_eq (by rw [List.mem_singleton.mp free, fill_use])
  · have notUse : ∀ w, t ≠ use w := fun w equal => isUse ⟨w, equal⟩
    obtain ⟨c, member, inside⟩ := (BuiltFrom.mem_freeVars_iff intact.quantifierFree notUse).mp free
    have part := size_le_size_fill (intact.child member) inside
    have smaller := intact.size_fill_child_lt notUse member
    omega
termination_by t.size
decreasing_by exact size_lt_of_mem_children member

/-- The term of a variable is smaller than any other filled term that the variable occurs in. -/
theorem size_lt_size_fill (intact : t.Intact θ) (notUse : ∀ w, t ≠ use w) {v : TypeVar}
    (free : v ∈ t.freeVars) : (θ v).size < (t.fill θ).size := by
  obtain ⟨c, member, inside⟩ := (BuiltFrom.mem_freeVars_iff intact.quantifierFree notUse).mp free
  have part := (intact.child member).size_le_size_fill inside
  have smaller := intact.size_fill_child_lt notUse member
  omega

theorem head?_fill (intact : t.Intact θ) {head : String} (applied : t.head? = some head) :
    (t.fill θ).head? = some head := by
  cases t with
  | con h args =>
    rw [(intact_con.mp intact).1]
    exact applied
  | use v => cases applied
  | scheme quantifier vars body => cases applied
  | func typeParams params result => cases applied

theorem congr {η : TypeVar → Term} (intact : t.Intact θ)
    (agree : ∀ v ∈ t.freeVars, η v = θ v) : t.Intact η := by
  induction t using Term.induct with
  | con head args ih =>
    obtain ⟨kept, parts⟩ := intact_con.mp intact
    have inside {a : Term} (member : a ∈ args) : ∀ v ∈ a.freeVars, η v = θ v :=
      fun v free => agree v (mem_freeVars_con.mpr ⟨a, member, free⟩)
    refine intact_con.mpr ⟨?_, fun a member => ih a member (parts a member) (inside member)⟩
    rw [fill_congr agree, kept]
    congr 1
    exact List.map_congr_left fun a member => (fill_congr (inside member)).symm
  | use v => trivial
  | scheme quantifier vars body => exact absurd intact (by simp [Intact])
  | func typeParams params result ihParams ihResult =>
    obtain ⟨rfl, parts⟩ := intact_func.mp intact
    have inside {p : Term} (member : p ∈ params ++ [result]) : ∀ v ∈ p.freeVars, η v = θ v :=
      fun v free => agree v (mem_freeVars_func.mpr ⟨p, member, free⟩)
    refine intact_func.mpr ⟨rfl, fun p member => ?_⟩
    rcases List.mem_append.mp member with inParams | isResult
    · exact ihParams p inParams (parts p member) (inside member)
    · obtain rfl := List.mem_singleton.mp isResult
      exact ihResult (parts _ member) (inside member)

private theorem applied_eq {head : String} {args : List Term}
    (kept : applied head (args.map (fill θ)) = con head (args.map (fill θ)))
    (parts : ∀ a ∈ args, a.Intact θ) : applied head args = con head args := by
  by_cases marked : head = nullableHead
  · subst marked
    by_cases single : ∃ a, args = [a]
    · obtain ⟨a, rfl⟩ := single
      have intact := parts a (List.mem_singleton_self a)
      rw [applied_nullableHead]
      cases a with
      | con k bs =>
        by_cases nested : k = nullableHead
        · subst nested
          rw [List.map_singleton, applied_nullableHead, (intact_con.mp intact).1, nullable,
            if_pos rfl] at kept
          injection kept with _ equal
          have sizes := congrArg sizeAll equal
          simp [sizeAll, size] at sizes
        · rw [nullable, if_neg nested]
      | use v => rfl
      | scheme quantifier vars body => exact absurd intact (by simp [Intact])
      | func typeParams params result => rfl
    · exact applied_of_not_single single _
  · exact applied_of_ne marked args

theorem fill_use_self (intact : t.Intact θ) : t.fill use = t := by
  induction t using Term.induct with
  | con head args ih =>
    obtain ⟨kept, parts⟩ := intact_con.mp intact
    rw [fill_con, List.map_congr_left fun a member => ih a member (parts a member), List.map_id']
    exact applied_eq ((fill_con ..).symm.trans kept) parts
  | use v => rw [fill_use]
  | scheme quantifier vars body => exact absurd intact (by simp [Intact])
  | func typeParams params result ihParams ihResult =>
    obtain ⟨rfl, parts⟩ := intact_func.mp intact
    rw [fill_func, List.map_congr_left fun p member => ihParams p member (parts p (by simp [member])),
      List.map_id', ihResult (parts result (by simp))]

end Intact

theorem intact_fill {θ σ : TypeVar → Term} {t : Term}
    (intact : t.Intact fun v => (σ v).fill θ)
    (images : ∀ v ∈ t.freeVars, (σ v).Intact θ) : (t.fill σ).Intact θ := by
  induction t using Term.induct with
  | con head args ih =>
    obtain ⟨kept, parts⟩ := intact_con.mp intact
    have filled : ∀ b ∈ args.map (fill σ), b.Intact θ := by
      intro b member
      obtain ⟨a, inside, rfl⟩ := List.mem_map.mp member
      exact ih a inside (parts a inside) fun v free =>
        images v (mem_freeVars_con.mpr ⟨a, inside, free⟩)
    have twice : (args.map (fill σ)).map (fill θ) =
        args.map (fill fun v => (σ v).fill θ) := by
      rw [List.map_map]
      exact List.map_congr_left fun a member => fill_fill θ σ (parts a member).quantifierFree
    rw [fill_con, ← twice] at kept
    rw [fill_con, Intact.applied_eq kept filled]
    exact intact_con.mpr ⟨(fill_con ..).trans kept, filled⟩
  | use v =>
    rw [fill_use]
    exact images v (by simp [freeVars])
  | scheme quantifier vars body => exact absurd intact (by simp [Intact])
  | func typeParams params result ihParams ihResult =>
    obtain ⟨rfl, parts⟩ := intact_func.mp intact
    rw [fill_func, intact_func]
    refine ⟨rfl, fun q member => ?_⟩
    have mapped : q ∈ (params ++ [result]).map (fill σ) := by simpa using member
    obtain ⟨p, inside, rfl⟩ := List.mem_map.mp mapped
    have below : ∀ v ∈ p.freeVars, (σ v).Intact θ :=
      fun v free => images v (mem_freeVars_func.mpr ⟨p, inside, free⟩)
    rcases List.mem_append.mp inside with inParams | isResult
    · exact ihParams p inParams (parts p inside) below
    · obtain rfl := List.mem_singleton.mp isResult
      exact ihResult (parts _ inside) below

/-! Putting variables for variables. -/

private theorem size_nullable_le (t : Term) : t.nullable.size ≤ t.size + 1 := by
  induction t using Term.induct with
  | con head args =>
    rw [nullable]
    split
    · exact Nat.le_succ _
    · simp [size, sizeAll]
  | use v => simp [nullable, size, sizeAll]
  | scheme quantifier vars body ih =>
    rw [nullable, size, size]
    omega
  | func typeParams params result => simp [nullable, size, sizeAll]

private theorem size_applied_le (head : String) (args : List Term) :
    (applied head args).size ≤ (con head args).size := by
  unfold applied
  split
  · split
    · next a _ =>
      have marked := size_nullable_le a
      simpa [size, sizeAll] using marked
    · exact Nat.le_refl _
  · exact Nat.le_refl _

theorem sizeAll_map_le {f : Term → Term} {ts : List Term} (each : ∀ t ∈ ts, (f t).size ≤ t.size) :
    sizeAll (ts.map f) ≤ sizeAll ts := by
  induction ts with
  | nil => exact Nat.le_refl 0
  | cons t ts ih =>
    obtain ⟨head, tail⟩ := List.forall_mem_cons.mp each
    have rest := ih tail
    rw [List.map_cons, sizeAll, sizeAll]
    omega

theorem size_replace_le {f : TypeVar → Option Term} (vars : ∀ v u, f v = some u → ∃ w, u = use w)
    (shadow : List TypeVar) (t : Term) : (replace f shadow t).size ≤ t.size := by
  induction t using Term.induct generalizing shadow with
  | con head args ih =>
    rw [replace_con]
    refine Nat.le_trans (size_applied_le _ _) ?_
    have parts := sizeAll_map_le fun a member => ih a member shadow
    rw [size, size]
    omega
  | use v =>
    rw [replace]
    split
    · exact Nat.le_refl _
    · cases image : f v with
      | none => exact Nat.le_refl _
      | some u =>
        obtain ⟨w, rfl⟩ := vars v u image
        exact Nat.le_refl _
  | scheme quantifier vars body ih =>
    have part := ih (vars ++ shadow)
    rw [replace, size, size]
    omega
  | func typeParams params result ihParams ihResult =>
    have parts := sizeAll_map_le fun p member => ihParams p member (typeParams ++ shadow)
    have part := ihResult (typeParams ++ shadow)
    rw [replace, replaceAll_eq_map, size, size]
    omega

end TypedCalls.Term
