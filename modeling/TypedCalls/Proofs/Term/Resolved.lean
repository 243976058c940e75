import TypedCalls.Proofs.Descent
import TypedCalls.Proofs.Term.Normal
import TypedCalls.Term.Malformed

/-!
What a substitution through chains of bindings comes to.

A mapping in which no variable leads back to itself has no chain of bindings longer than itself
(`settles_of_acyclic`). So a substitution reads every chain to its end: what is free afterwards is not
mapped, and a second substitution finds nothing to do (`subst_resolves`).

Terms are also put together part by part with every part checked (`substChecked`). No check ever fails
for well-formed terms, because the nullable marker is put on through `nullable`, which looks for a
marker that came in with a replacement.
-/

set_option autoImplicit false

namespace TypedCalls.Term

/-! Chains of bindings. -/

section Chains

variable {γ : TypeVar → Option Term} {n : Nat} {v : TypeVar}

def Settles (γ : TypeVar → Option Term) : Nat → TypeVar → Prop
  | 0, v => γ v = none
  | n + 1, v => ∀ t, γ v = some t → ∀ w ∈ t.freeVars, Settles γ n w

private theorem standsFor_of_unmapped (unmapped : γ v = none) (n : Nat) :
    standsFor γ n v = none := by
  cases n with
  | zero => rfl
  | succ n => rw [standsFor, unmapped, Option.map_none]

private theorem Settles.standsFor_eq (settles : Settles γ n v) {m : Nat} (le : n ≤ m) :
    standsFor γ m v = standsFor γ n v := by
  induction n generalizing m v with
  | zero => exact standsFor_of_unmapped settles m
  | succ n ih =>
    obtain ⟨m, rfl⟩ : ∃ k, m = k + 1 := ⟨m - 1, by omega⟩
    rw [standsFor, standsFor]
    cases mapped : γ v with
    | none => rfl
    | some t =>
      refine congrArg some (replace_congr fun w free _ => ?_)
      rw [ih (settles t mapped w free) (by omega)]

private theorem Settles.unmapped_of_free (settles : Settles γ n v) {x : TypeVar}
    (free : x ∈ ((standsFor γ n v).getD (use v)).freeVars) : γ x = none := by
  induction n generalizing v with
  | zero =>
    obtain rfl : x = v := List.mem_singleton.mp free
    exact settles
  | succ n ih =>
    rw [standsFor] at free
    cases mapped : γ v with
    | none =>
      rw [mapped] at free
      obtain rfl : x = v := List.mem_singleton.mp free
      exact mapped
    | some t =>
      rw [mapped] at free
      rcases mem_freeVars_replace free with ⟨-, hidden⟩ | ⟨w, own, -, image⟩
      · cases hidden
      · exact ih (settles t mapped w own) image

end Chains

namespace Mapping

def LeadsTo (γ : Mapping) (v w : TypeVar) : Prop :=
  ∃ t, γ.get? v = some t ∧ w ∈ t.freeVars

/-- No variable leads back to itself, in however many steps. -/
def Acyclic (γ : Mapping) : Prop := ∀ v, ¬Relation.TransGen γ.LeadsTo v v

private theorem mem_of_get? {γ : Mapping} {v : TypeVar} {t : Term} (mapped : γ.get? v = some t) :
    (v, t) ∈ γ := by
  induction γ with
  | nil => cases mapped
  | cons entry rest ih =>
    obtain ⟨w, u⟩ := entry
    rw [get?] at mapped
    split at mapped
    · next later => exact List.mem_cons_of_mem _ (ih (later.trans mapped))
    · split at mapped
      · next same =>
        cases mapped
        exact same ▸ List.mem_cons_self ..
      · cases mapped

theorem settles_of_acyclic {γ : Mapping} (acyclic : γ.Acyclic) (v : TypeVar) :
    Settles γ.get? γ.length v := by
  have key {v : TypeVar} {t : Term} (mapped : γ.get? v = some t) : v ∈ γ.map Prod.fst :=
    List.mem_map.mpr ⟨_, mem_of_get? mapped, rfl⟩
  obtain ⟨rank, bounded, positive, falls⟩ := exists_rank_of_acyclic
    (fun _ _ leads => key leads.choose_spec.1) acyclic
  have settles (n : Nat) : ∀ v, rank v ≤ n → Settles γ.get? n v := by
    induction n with
    | zero =>
      intro v few
      refine Option.eq_none_iff_forall_ne_some.mpr fun t mapped => ?_
      exact absurd (positive v (key mapped)) (by omega)
    | succ n ih =>
      intro v few t mapped w free
      have fewer := falls v w ⟨t, mapped, free⟩
      exact ih w (by omega)
  exact settles _ v (List.length_map Prod.fst ▸ bounded v)

end Mapping

/-! Well-formedness. -/

private theorem wellFormed_nullable {t : Term} (wellFormed : t.WellFormed) :
    t.nullable.WellFormed := by
  have marked {u : Term} (good : u.WellFormed) (bare : u.isKnownNullable = false) :
      (con nullableHead [u]).WellFormed :=
    ⟨fun _ => ⟨u, rfl, bare⟩, good, trivial⟩
  induction t using Term.induct with
  | con head args _ =>
    rw [nullable]
    split
    · exact wellFormed
    · next plain => exact marked wellFormed (by simp [isKnownNullable, plain])
  | use v => exact marked wellFormed rfl
  | scheme quantifier vars body ih => exact ⟨wellFormed.1, ih wellFormed.2⟩
  | func typeParams params result _ _ => exact marked wellFormed rfl

def nullableChecked : Term → Except Malformed Term
  | .scheme quantifier vars body => do scheme? quantifier vars (← body.nullableChecked)
  | .con head args =>
    if (con head args).isKnownNullable then .ok (.con head args)
    else con? nullableHead [.con head args]
  | .use v => con? nullableHead [.use v]
  | .func typeParams params result => con? nullableHead [.func typeParams params result]

def appliedChecked (head : String) (args : List Term) : Except Malformed Term :=
  match args with
  | [] => .ok (.con head [])
  | a :: rest => if head = nullableHead then a.nullableChecked else con? head (a :: rest)

mutual

/-- Put `f v` in the place of every free variable `v` that is not shadowed, checking every part that is
put together. -/
def replaceChecked (f : TypeVar → Option (Except Malformed Term)) (shadow : List TypeVar) :
    Term → Except Malformed Term
  | .con head args => do appliedChecked head (← replaceCheckedAll f shadow args)
  | .use v => if v ∈ shadow then .ok (.use v) else (f v).getD (.ok (.use v))
  | .scheme quantifier vars body => do
    scheme? quantifier vars (← replaceChecked f (vars ++ shadow) body)
  | .func typeParams params result => do
    let params ← replaceCheckedAll f (typeParams ++ shadow) params
    func? typeParams params (← replaceChecked f (typeParams ++ shadow) result)

def replaceCheckedAll (f : TypeVar → Option (Except Malformed Term)) (shadow : List TypeVar) :
    List Term → Except Malformed (List Term)
  | [] => .ok []
  | t :: ts => do return (← replaceChecked f shadow t) :: (← replaceCheckedAll f shadow ts)

end

def standsForChecked (γ : TypeVar → Option Term) : Nat → TypeVar → Option (Except Malformed Term)
  | 0, _ => none
  | n + 1, v => (γ v).map (replaceChecked (standsForChecked γ n) [])

/-- Replace free variables according to a finite mapping, checking every part that is put together. -/
def substChecked (γ : Mapping) (t : Term) : Except Malformed Term :=
  replaceChecked (standsForChecked γ.get? γ.length) [] t

private theorem scheme?_eq_ok {quantifier : Quantifier} {vars : List TypeVar} {body body' : Term}
    (here : WellFormedHere (scheme quantifier vars body)) :
    scheme? quantifier vars body' = .ok (scheme quantifier vars body') := by
  obtain ⟨some, distinct⟩ := here
  rw [scheme?, if_neg (by simpa using some), if_pos distinct]

private theorem con?_eq_ok_of_ne {head : String} (plain : head ≠ nullableHead) (args : List Term) :
    con? head args = .ok (con head args) := by
  unfold con?
  rw [if_neg plain]

private theorem nullableChecked_eq_ok {t : Term} (wellFormed : t.WellFormed) :
    t.nullableChecked = .ok t.nullable := by
  induction t using Term.induct with
  | con head args _ =>
    by_cases marked : head = nullableHead
    · simp [nullableChecked, nullable, isKnownNullable, marked]
    · simp [nullableChecked, nullable, isKnownNullable, marked, con?]
  | use v => simp [nullableChecked, nullable, isKnownNullable, con?]
  | scheme quantifier vars body ih =>
    rw [nullableChecked, ih wellFormed.2]
    exact scheme?_eq_ok wellFormed.1
  | func typeParams params result _ _ => simp [nullableChecked, nullable, isKnownNullable, con?]

private theorem appliedChecked_eq_ok {head : String} {args args' : List Term}
    (here : WellFormedHere (con head args)) (same : args'.length = args.length)
    (wellFormed : ∀ a ∈ args', a.WellFormed) :
    appliedChecked head args' = .ok (applied head args') ∧ (applied head args').WellFormed := by
  by_cases marked : head = nullableHead
  · subst marked
    obtain ⟨a, rfl, -⟩ := here rfl
    obtain ⟨b, rfl⟩ := List.length_eq_one_iff.mp same
    have good := wellFormed b (List.mem_singleton_self b)
    rw [applied_nullableHead, appliedChecked, if_pos rfl]
    exact ⟨nullableChecked_eq_ok good, wellFormed_nullable good⟩
  · rw [applied_of_ne marked]
    refine ⟨?_, fun same => absurd same marked, wellFormedAll_iff.mpr wellFormed⟩
    cases args' with
    | nil => rfl
    | cons a rest => rw [appliedChecked, if_neg marked, con?_eq_ok_of_ne marked]

def Checks (f : TypeVar → Option Term) (g : TypeVar → Option (Except Malformed Term)) : Prop :=
  ∀ v, g v = (f v).map .ok ∧ ∀ u, f v = some u → u.WellFormed

private theorem replaceCheckedAll_eq_ok {f : TypeVar → Option (Except Malformed Term)}
    {shadow : List TypeVar} {ts : List Term} {h : Term → Term}
    (each : ∀ t ∈ ts, replaceChecked f shadow t = .ok (h t)) :
    replaceCheckedAll f shadow ts = .ok (ts.map h) := by
  induction ts with
  | nil => rfl
  | cons t ts ih =>
    obtain ⟨first, others⟩ := List.forall_mem_cons.mp each
    rw [replaceCheckedAll, first, ih others]
    rfl

private theorem replaceChecked_eq_ok {f : TypeVar → Option Term}
    {g : TypeVar → Option (Except Malformed Term)} (checks : Checks f g) {t : Term}
    (wellFormed : t.WellFormed) (shadow : List TypeVar) :
    replaceChecked g shadow t = .ok (t.replace f shadow) ∧ (t.replace f shadow).WellFormed := by
  induction t using Term.induct generalizing shadow with
  | con head args ih =>
    have parts : ∀ a ∈ args, replaceChecked g shadow a = .ok (a.replace f shadow) ∧
        (a.replace f shadow).WellFormed := fun a member =>
      ih a member (wellFormedAll_iff.mp wellFormed.2 a member) shadow
    have all := replaceCheckedAll_eq_ok fun a member => (parts a member).1
    rw [replaceChecked, all, replace_con]
    refine appliedChecked_eq_ok wellFormed.1 (List.length_map ..) ?_
    exact List.forall_mem_map.mpr fun a member => (parts a member).2
  | use v =>
    rw [replaceChecked, replace]
    split
    · exact ⟨rfl, trivial⟩
    · obtain ⟨same, good⟩ := checks v
      rw [same]
      cases image : f v with
      | none => exact ⟨rfl, trivial⟩
      | some u => exact ⟨rfl, good u image⟩
  | scheme quantifier vars body ih =>
    obtain ⟨inner, good⟩ := ih wellFormed.2 (vars ++ shadow)
    rw [replaceChecked, inner, replace]
    exact ⟨scheme?_eq_ok wellFormed.1, wellFormed.1, good⟩
  | func typeParams params result ihParams ihResult =>
    have parts : ∀ p ∈ params, replaceChecked g (typeParams ++ shadow) p =
        .ok (p.replace f (typeParams ++ shadow)) ∧
        (p.replace f (typeParams ++ shadow)).WellFormed := fun p member =>
      ihParams p member (wellFormedAll_iff.mp wellFormed.2.1 p member) _
    obtain ⟨last, good⟩ := ihResult wellFormed.2.2 (typeParams ++ shadow)
    have distinct : typeParams.Nodup := wellFormed.1
    rw [replaceChecked, replaceCheckedAll_eq_ok fun p member => (parts p member).1, last, replace,
      replaceAll_eq_map]
    refine ⟨if_pos distinct, distinct, ?_, good⟩
    exact wellFormedAll_iff.mpr (List.forall_mem_map.mpr fun p member => (parts p member).2)

private theorem checks_standsFor {γ : TypeVar → Option Term}
    (images : ∀ v u, γ v = some u → u.WellFormed) (n : Nat) :
    Checks (standsFor γ n) (standsForChecked γ n) := by
  induction n with
  | zero => exact fun v => ⟨rfl, by simp [standsFor]⟩
  | succ n ih =>
    intro v
    rw [standsForChecked, standsFor]
    cases mapped : γ v with
    | none => simp
    | some t =>
      obtain ⟨checked, good⟩ := replaceChecked_eq_ok ih (images v t mapped) []
      refine ⟨congrArg some checked, fun u image => ?_⟩
      exact Option.some.inj image ▸ good

/-- A substitution of well-formed terms by a mapping in which no variable leads back to itself. No check
on the parts fails and the result is well-formed. Chains of bindings are read to their end, so that
nothing is free afterwards that is mapped, and a second substitution changes nothing. Terms may be
marked as nullable before or after. -/
theorem subst_resolves (γ : Mapping) (acyclic : γ.Acyclic)
    (images : ∀ v u, γ.get? v = some u → u.WellFormed) (t : Term) (wellFormed : t.WellFormed) :
    (substChecked γ t = .ok (t.subst γ) ∧ (t.subst γ).WellFormed) ∧
      (∀ v u, γ.get? v = some u → (use v).subst γ = u.subst γ) ∧
      (∀ x ∈ (t.subst γ).freeVars, γ.get? x = none) ∧
      (t.subst γ).subst γ = t.subst γ ∧
      t.nullable.subst γ = (t.subst γ).nullable := by
  have settles := Mapping.settles_of_acyclic acyclic
  have unmapped : ∀ x ∈ (t.subst γ).freeVars, γ.get? x = none := by
    intro x free
    rcases mem_freeVars_replace free with ⟨-, hidden⟩ | ⟨v, -, -, image⟩
    · cases hidden
    · exact (settles v).unmapped_of_free image
  refine ⟨replaceChecked_eq_ok (checks_standsFor images _) wellFormed [], ?_, unmapped, ?_,
    replace_nullable _ _ t⟩
  · intro v u mapped
    have more := (settles v).standsFor_eq (Nat.le_succ _)
    rw [subst, substWithin, replace, if_neg List.not_mem_nil, ← more, standsFor, mapped]
    rfl
  · refine (normal_substWithin _ _ t).replace_eq fun x free _ => ?_
    rw [standsFor_of_unmapped (unmapped x free)]
    rfl

/-- A marker over a quantifier, a chain of two bindings, and a replacement that brings a marker along:
the marker moves inside the quantifier and is not written twice. -/
theorem subst_resolves_nullable_chain :
    let a : TypeVar := ⟨"a"⟩
    let b : TypeVar := ⟨"b"⟩
    let c : TypeVar := ⟨"c"⟩
    let d : TypeVar := ⟨"d"⟩
    let γ : Mapping := [(a, .use b), (b, .con nullableHead [.use c])]
    let t : Term := .con nullableHead [.scheme .every [d] (.use a)]
    let settled : Term := .scheme .every [d] (.con nullableHead [.use c])
    γ.Acyclic ∧ (∀ v u, γ.get? v = some u → u.WellFormed) ∧ t.WellFormed ∧
      t.subst γ = settled ∧ substChecked γ t = .ok settled ∧ settled.subst γ = settled := by
  intro a b c d γ t settled
  have falls : ∀ entry ∈ γ, ∀ w ∈ entry.2.freeVars,
      (if w = a then 2 else if w = b then 1 else 0) <
        if entry.1 = a then 2 else if entry.1 = b then 1 else 0 := by
    decide
  have acyclic : γ.Acyclic :=
    acyclic_of_rank (fun v => if v = a then 2 else if v = b then 1 else 0)
      (fun v w leads => falls (v, _) (Mapping.mem_of_get? leads.choose_spec.1) w
        leads.choose_spec.2)
  have images : ∀ v u, γ.get? v = some u → u.WellFormed := by
    intro v u mapped
    have entry := Mapping.mem_of_get? mapped
    simp only [γ, List.mem_cons, Prod.mk.injEq, List.not_mem_nil, or_false] at entry
    rcases entry with ⟨-, rfl⟩ | ⟨-, rfl⟩
    · trivial
    · exact wellFormed_nullable (t := .use c) trivial
  have wellFormed : t.WellFormed := by
    simp [t, WellFormed, WellFormedAll, WellFormedHere, isKnownNullable]
  have value : t.subst γ = settled := by decide
  obtain ⟨⟨checked, -⟩, -, -, again, -⟩ := subst_resolves γ acyclic images t wellFormed
  rw [value] at checked again
  exact ⟨acyclic, images, wellFormed, value, checked, again⟩

end TypedCalls.Term
