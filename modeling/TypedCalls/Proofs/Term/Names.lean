import TypedCalls.Proofs.Typer.Fresh

/-!
All the names in a term.

`names` lists the free variables of a term and those that its binders bind. A replacement brings in
no names but those of what is put in (`NamesOlder.replace`). So if every made-up name that a term
and the bindings have was given out, the same is true of the term read through the bindings
(`NamesOlder.substWithin`), and of what is opened by fresh variables (`NamesOlder.subst_freshFor`).
-/

set_option autoImplicit false

namespace TypedCalls

namespace Term

mutual

def names : Term → List TypeVar
  | .con _ args => namesAll args
  | .use v => [v]
  | .scheme _ vars body => vars ++ body.names
  | .func typeParams params result => typeParams ++ (namesAll params ++ result.names)

def namesAll : List Term → List TypeVar
  | [] => []
  | t :: ts => t.names ++ namesAll ts

end

private theorem namesAll_eq_flatMap (ts : List Term) : namesAll ts = ts.flatMap names := by
  induction ts with
  | nil => rfl
  | cons t ts ih => rw [namesAll, ih, List.flatMap_cons]

private theorem mem_names_con {head : String} {args : List Term} {v : TypeVar} :
    v ∈ (con head args).names ↔ ∃ a ∈ args, v ∈ a.names := by
  rw [names, namesAll_eq_flatMap, List.mem_flatMap]

private theorem mem_names_func {typeParams : List TypeVar} {params : List Term} {result : Term}
    {v : TypeVar} : v ∈ (func typeParams params result).names ↔
      v ∈ typeParams ∨ ∃ p ∈ params ++ [result], v ∈ p.names := by
  simp [names, namesAll_eq_flatMap, or_and_right, exists_or]

private theorem names_nullable (t : Term) : t.nullable.names = t.names := by
  induction t using Term.induct with
  | con head args _ =>
    rw [nullable]
    split
    · rfl
    · simp [names, namesAll]
  | use v => rfl
  | scheme quantifier vars body ih => rw [nullable, names, ih, names]
  | func typeParams params result _ _ => simp [nullable, names, namesAll]

private theorem names_applied (head : String) (args : List Term) :
    (applied head args).names = (con head args).names := by
  unfold applied
  split
  · split
    · simp [names_nullable, names, namesAll]
    · rfl
  · rfl

/-- Every name in the term that has the form of a made-up one has at most the number `c`, whether it
is free or bound. -/
def NamesOlder (c : Nat) (t : Term) : Prop := ∀ v ∈ t.names, v.Older c

section Older

variable {c d : Nat} {t : Term}

theorem namesOlder_use {v : TypeVar} : (use v).NamesOlder c ↔ v.Older c :=
  List.forall_mem_singleton

theorem namesOlder_con {head : String} {args : List Term} :
    (con head args).NamesOlder c ↔ ∀ a ∈ args, a.NamesOlder c := by
  simp only [NamesOlder, mem_names_con]
  constructor
  · exact fun older a member v name => older v ⟨a, member, name⟩
  · rintro parts v ⟨a, member, name⟩
    exact parts a member v name

theorem namesOlder_scheme {quantifier : Quantifier} {vars : List TypeVar} {body : Term} :
    (scheme quantifier vars body).NamesOlder c ↔
      (∀ v ∈ vars, v.Older c) ∧ body.NamesOlder c :=
  List.forall_mem_append

theorem namesOlder_func {typeParams : List TypeVar} {params : List Term} {result : Term} :
    (func typeParams params result).NamesOlder c ↔
      (∀ v ∈ typeParams, v.Older c) ∧ ∀ p ∈ params ++ [result], p.NamesOlder c := by
  simp only [NamesOlder, mem_names_func]
  constructor
  · intro older
    exact ⟨fun v member => older v (.inl member),
      fun p member v name => older v (.inr ⟨p, member, name⟩)⟩
  · rintro ⟨binder, parts⟩ v (member | ⟨p, member, name⟩)
    · exact binder v member
    · exact parts p member v name

theorem NamesOlder.mono (older : t.NamesOlder c) (le : c ≤ d) : t.NamesOlder d :=
  fun v name => (older v name).mono le

theorem namesOlder_of_not_madeUp (given : ∀ v ∈ t.names, ¬v.MadeUp) (c : Nat) : t.NamesOlder c :=
  fun v name => TypeVar.older_of_not_madeUp (given v name) c

theorem NamesOlder.not_mem (older : t.NamesOlder c) (family : Family) :
    TypeVar.numbered family (c + 1) ∉ t.names :=
  fun name => TypeVar.not_older_numbered family (Nat.lt_succ_self c) (older _ name)

/-- Binders keep their names, and what is put in the place of a variable brings its own. -/
theorem NamesOlder.replace (older : t.NamesOlder c) {f : TypeVar → Option Term}
    (images : ∀ v u, f v = some u → u.NamesOlder c) (shadow : List TypeVar) :
    (t.replace f shadow).NamesOlder c := by
  induction t using Term.induct generalizing shadow with
  | con head args ih =>
    rw [replace_con, NamesOlder, names_applied]
    refine namesOlder_con.mpr (List.forall_mem_map.mpr fun a member => ?_)
    exact ih a member (namesOlder_con.mp older a member) shadow
  | use v =>
    rw [Term.replace]
    split
    · exact older
    · cases image : f v with
      | none => exact older
      | some u => exact images v u image
  | scheme quantifier vars body ih =>
    obtain ⟨binder, inner⟩ := namesOlder_scheme.mp older
    exact namesOlder_scheme.mpr ⟨binder, ih inner _⟩
  | func typeParams params result ihParams ihResult =>
    obtain ⟨binder, parts⟩ := namesOlder_func.mp older
    rw [Term.replace, replaceAll_eq_map]
    refine namesOlder_func.mpr ⟨binder, fun p member => ?_⟩
    rcases List.mem_append.mp member with inParams | isResult
    · obtain ⟨q, part, rfl⟩ := List.mem_map.mp inParams
      exact ihParams q part (parts q (List.mem_append_left _ part)) _
    · rw [List.mem_singleton.mp isResult]
      exact ihResult (parts result (by simp)) _

private theorem namesOlder_standsFor {γ : TypeVar → Option Term}
    (images : ∀ v u, γ v = some u → u.NamesOlder c) (n : Nat) :
    ∀ v u, standsFor γ n v = some u → u.NamesOlder c := by
  induction n with
  | zero => simp [standsFor]
  | succ n ih =>
    intro v u stands
    obtain ⟨s, mapped, rfl⟩ := Option.map_eq_some_iff.mp stands
    exact (images v s mapped).replace ih []

theorem NamesOlder.substWithin (older : t.NamesOlder c) {γ : TypeVar → Option Term}
    (images : ∀ v u, γ v = some u → u.NamesOlder c) (n : Nat) :
    (t.substWithin γ n).NamesOlder c :=
  older.replace (namesOlder_standsFor images n) []

/-- A term that is opened by fresh variables has names that were given out by then. It does not
matter whether the variables that are opened have the form of made-up ones themselves. -/
theorem NamesOlder.subst_freshFor {typer : Typer} (older : t.NamesOlder typer.counter)
    (family : Family) (vars : List TypeVar) :
    (t.subst (typer.freshFor family vars).1).NamesOlder (typer.freshFor family vars).2.counter := by
  rw [Typer.freshFor_snd]
  refine (older.mono (Nat.le_add_right _ _)).substWithin (fun v u mapped => ?_) _
  by_cases member : v ∈ vars
  · obtain ⟨n, -, upper, found⟩ := typer.get?_freshFor_of_mem family member
    rw [found] at mapped
    cases mapped
    exact namesOlder_use.mpr (TypeVar.older_numbered family upper)
  · rw [typer.get?_freshFor_of_not_mem family member] at mapped
    cases mapped

end Older

end Term

end TypedCalls
