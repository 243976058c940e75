import Mathlib.Data.List.Basic
import TypedCalls.Proofs.Term.Filling

/-!
Which variables are free after a substitution.

Binders keep their names, so a variable that is free in a replacement may come to stand under a
binder of its own name and be captured. What is free afterwards can be read off the places where
variables stand free before, each with the variables bound above it (`freeVars_subst`): what is put
there adds its free variables, less those bound above the place. So a substitution sets no variable
free that is not free in a replacement, and loses those that are captured wherever they are put
(`freeVars_subst_unless_captured`).
-/

set_option autoImplicit false

namespace TypedCalls.Term

/-- Places as they are seen from above a binder: those of the bound variables are gone, and the
others are under the binder as well. -/
def placesUnder (vars : List TypeVar) (places : List (TypeVar × List TypeVar)) :
    List (TypeVar × List TypeVar) :=
  (places.filter fun place => place.1 ∉ vars).map fun place => (place.1, vars ++ place.2)

mutual

/-- The places where variables stand free, in reading order: each is the variable and the variables
bound above it. -/
def places : Term → List (TypeVar × List TypeVar)
  | .con _ args => placesAll args
  | .use v => [(v, [])]
  | .scheme _ vars body => placesUnder vars body.places
  | .func typeParams params result => placesUnder typeParams (placesAll params ++ result.places)

def placesAll : List Term → List (TypeVar × List TypeVar)
  | [] => []
  | t :: ts => t.places ++ placesAll ts

end

theorem placesAll_eq_flatMap (ts : List Term) : placesAll ts = ts.flatMap places := by
  induction ts with
  | nil => rfl
  | cons t ts ih => rw [placesAll, ih, List.flatMap_cons]

private theorem map_fst_placesUnder (vars : List TypeVar) (places : List (TypeVar × List TypeVar)) :
    (placesUnder vars places).map Prod.fst = (places.map Prod.fst).filter (· ∉ vars) := by
  rw [placesUnder, List.map_map, List.filter_map]
  rfl

private theorem map_fst_places (t : Term) : t.places.map Prod.fst = t.freeVars := by
  have all {ts : List Term} (each : ∀ t ∈ ts, t.places.map Prod.fst = t.freeVars) :
      (placesAll ts).map Prod.fst = freeVarsAll ts := by
    rw [placesAll_eq_flatMap, freeVarsAll_eq_flatMap, List.map_flatMap]
    exact List.flatMap_congr each
  induction t using Term.induct with
  | con head args ih => exact all ih
  | use v => rfl
  | scheme quantifier vars body ih => rw [places, map_fst_placesUnder, ih, freeVars]
  | func typeParams params result ihParams ihResult =>
    rw [places, map_fst_placesUnder, List.map_append, all ihParams, ihResult, freeVars]

theorem mem_freeVars_iff_places {t : Term} {v : TypeVar} :
    v ∈ t.freeVars ↔ ∃ above, (v, above) ∈ t.places := by
  rw [← map_fst_places, List.mem_map]
  constructor
  · rintro ⟨place, member, rfl⟩
    exact ⟨place.2, member⟩
  · rintro ⟨above, member⟩
    exact ⟨(v, above), member, rfl⟩

/-- The variables that are free at a place after replacing: those of the replacement that are not
bound above, or the variable itself if it is shadowed. -/
def surfacing (f : TypeVar → Option Term) (shadow : List TypeVar)
    (place : TypeVar × List TypeVar) : List TypeVar :=
  if place.1 ∈ shadow then [place.1]
  else ((f place.1).getD (.use place.1)).freeVars.filter (· ∉ place.2)

private theorem surfacing_under (f : TypeVar → Option Term) (shadow vars : List TypeVar)
    (place : TypeVar × List TypeVar) :
    (surfacing f (vars ++ shadow) place).filter (· ∉ vars) =
      if place.1 ∈ vars then [] else surfacing f shadow (place.1, vars ++ place.2) := by
  unfold surfacing
  by_cases bound : place.1 ∈ vars
  · simp [bound]
  · by_cases hidden : place.1 ∈ shadow
    · simp [bound, hidden]
    · simp [bound, hidden, List.filter_filter]

private theorem flatMap_surfacing_placesUnder (f : TypeVar → Option Term)
    (shadow vars : List TypeVar) (places : List (TypeVar × List TypeVar)) :
    (placesUnder vars places).flatMap (surfacing f shadow) =
      (places.flatMap (surfacing f (vars ++ shadow))).filter (· ∉ vars) := by
  induction places with
  | nil => rfl
  | cons place places ih =>
    rw [List.flatMap_cons, List.filter_append, ← ih, surfacing_under]
    by_cases bound : place.1 ∈ vars
    · simp [placesUnder, bound]
    · simp [placesUnder, bound]

theorem freeVars_replace (f : TypeVar → Option Term) (shadow : List TypeVar) (t : Term) :
    (replace f shadow t).freeVars = t.places.flatMap (surfacing f shadow) := by
  have all {ts : List Term} {shadow : List TypeVar} (each : ∀ t ∈ ts,
      (replace f shadow t).freeVars = t.places.flatMap (surfacing f shadow)) :
      freeVarsAll (ts.map (replace f shadow)) = (placesAll ts).flatMap (surfacing f shadow) := by
    rw [freeVarsAll_eq_flatMap, List.flatMap_map, placesAll_eq_flatMap, List.flatMap_assoc]
    exact List.flatMap_congr each
  induction t using Term.induct generalizing shadow with
  | con head args ih =>
    rw [replace_con, freeVars_applied, freeVars, places]
    exact all fun a member => ih a member shadow
  | use v =>
    by_cases hidden : v ∈ shadow
    · simp [replace, places, surfacing, freeVars, hidden]
    · rw [replace, if_neg hidden, places, List.flatMap_singleton, surfacing, if_neg hidden]
      simp
  | scheme quantifier vars body ih =>
    rw [replace, freeVars, ih, places, flatMap_surfacing_placesUnder]
  | func typeParams params result ihParams ihResult =>
    rw [replace, replaceAll_eq_map, freeVars, all fun p member => ihParams p member _, ihResult,
      places, flatMap_surfacing_placesUnder, List.flatMap_append]

/-- What is free after a substitution: at each place the free variables of what the variable there
becomes, less those bound above the place. -/
theorem freeVars_subst (γ : Mapping) (t : Term) :
    (t.subst γ).freeVars =
      t.places.flatMap fun place => ((use place.1).subst γ).freeVars.filter (· ∉ place.2) := by
  rw [subst, substWithin, freeVars_replace]
  refine List.flatMap_congr fun place _ => ?_
  rw [subst, substWithin, surfacing, if_neg List.not_mem_nil, replace, if_neg List.not_mem_nil]

/-- At some place a variable that is free in what is put there is bound above it. -/
def Captures (γ : Mapping) (t : Term) : Prop :=
  ∃ place ∈ t.places, ∃ x ∈ ((use place.1).subst γ).freeVars, x ∈ place.2

instance (γ : Mapping) (t : Term) : Decidable (Captures γ t) :=
  inferInstanceAs (Decidable (∃ place ∈ t.places, ∃ x ∈ ((use place.1).subst γ).freeVars,
    x ∈ place.2))

/-- After a substitution exactly those variables are free that are free in what is put at some place
and not bound above that place. So nothing is set free that is not free in what replaces a free
variable, and where nothing is captured all of that stays free. -/
theorem freeVars_subst_unless_captured (γ : Mapping) (t : Term) :
    (∀ x, x ∈ (t.subst γ).freeVars ↔
        ∃ v above, (v, above) ∈ t.places ∧ x ∈ ((use v).subst γ).freeVars ∧ x ∉ above) ∧
      (∀ x ∈ (t.subst γ).freeVars, ∃ v ∈ t.freeVars, x ∈ ((use v).subst γ).freeVars) ∧
      (¬Captures γ t → ∀ x,
        x ∈ (t.subst γ).freeVars ↔ ∃ v ∈ t.freeVars, x ∈ ((use v).subst γ).freeVars) := by
  have free (x : TypeVar) : x ∈ (t.subst γ).freeVars ↔
      ∃ v above, (v, above) ∈ t.places ∧ x ∈ ((use v).subst γ).freeVars ∧ x ∉ above := by
    rw [freeVars_subst]
    simp
  have within (x : TypeVar) (after : x ∈ (t.subst γ).freeVars) :
      ∃ v ∈ t.freeVars, x ∈ ((use v).subst γ).freeVars := by
    obtain ⟨v, above, place, image, -⟩ := (free x).mp after
    exact ⟨v, mem_freeVars_iff_places.mpr ⟨above, place⟩, image⟩
  refine ⟨free, within, fun safe x => ⟨within x, ?_⟩⟩
  rintro ⟨v, own, image⟩
  obtain ⟨above, place⟩ := mem_freeVars_iff_places.mp own
  refine (free x).mpr ⟨v, above, place, image, fun bound => safe ?_⟩
  exact ⟨(v, above), place, x, image, bound⟩

/-- A list of `a` is put for `b` under a quantifier over `c`, where nothing is captured, and at two
places of which one is under a binder of `a`: either way `a` is free afterwards. -/
theorem freeVars_subst_unless_captured_beside :
    let a : TypeVar := ⟨"a"⟩
    let b : TypeVar := ⟨"b"⟩
    let c : TypeVar := ⟨"c"⟩
    let γ : Mapping := [(b, .con "List" [.use a])]
    let safe : Term := .scheme .every [c] (.con "Pair" [.use c, .use b])
    let beside : Term := .con "Pair" [.use b, .func [a] [.use a] (.use b)]
    ¬Captures γ safe ∧ a ∈ (safe.subst γ).freeVars ∧ Captures γ beside ∧
      a ∈ (beside.subst γ).freeVars := by
  intro a b c γ safe beside
  have nothing : ¬Captures γ safe := by decide
  obtain ⟨-, -, kept⟩ := freeVars_subst_unless_captured γ safe
  obtain ⟨exactly, -, -⟩ := freeVars_subst_unless_captured γ beside
  exact ⟨nothing, (kept nothing a).mpr ⟨b, by decide, by decide⟩, by decide,
    (exactly a).mpr ⟨b, [], by decide, by decide, by decide⟩⟩

/-- A list of `a` that is put for `b` under a quantifier over `a`: the mapping has no cycle, `a` is
free in what replaces the one free variable, and nothing is free afterwards. -/
theorem subst_captures_free :
    let a : TypeVar := ⟨"a"⟩
    let b : TypeVar := ⟨"b"⟩
    let γ : Mapping := [(b, .con "List" [.use a])]
    let t : Term := .scheme .every [a] (.con "Pair" [.use a, .use b])
    Mapping.get? γ a = none ∧
      t.subst γ = .scheme .every [a] (.con "Pair" [.use a, .con "List" [.use a]]) ∧
      ¬∀ x, x ∈ (t.subst γ).freeVars ↔ ∃ v ∈ t.freeVars, x ∈ ((use v).subst γ).freeVars := by
  intro a b γ t
  refine ⟨by decide, by decide, fun equal => ?_⟩
  have free : a ∈ (t.subst γ).freeVars := (equal a).mpr ⟨b, by decide, by decide⟩
  exact absurd free (by decide)

end TypedCalls.Term
