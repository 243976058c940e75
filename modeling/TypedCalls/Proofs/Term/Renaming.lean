import Mathlib.Logic.Equiv.Basic
import TypedCalls.Proofs.Term.Throughout
import TypedCalls.Proofs.Typer.Fresh

/-!
Renaming of made-up variables.

A renaming is a bijection of variables that leaves all names alone which are not made up, so it can be
turned round and composed, and it can always be extended to names that are new on both sides
(`exists_extension`). On plain terms, whose binders bind no made-up names, renaming commutes with free
variables and with filling (`freeVars_rename`, `rename_fill`).
-/

set_option autoImplicit false

namespace TypedCalls

/-- A bijection of variables that moves made-up names only. -/
structure Renaming where
  perm : Equiv.Perm TypeVar
  given : ∀ v, ¬v.MadeUp → perm v = v

namespace Renaming

instance : CoeFun Renaming fun _ => TypeVar → TypeVar := ⟨fun π => π.perm⟩

def refl : Renaming := ⟨Equiv.refl TypeVar, fun _ _ => rfl⟩

def symm (π : Renaming) : Renaming :=
  ⟨π.perm.symm, fun v given => (Equiv.symm_apply_eq _).mpr (π.given v given).symm⟩

def trans (π ρ : Renaming) : Renaming :=
  ⟨π.perm.trans ρ.perm, fun v given =>
    (congrArg ρ.perm (π.given v given)).trans (ρ.given v given)⟩

variable (π ρ : Renaming)

@[simp] theorem refl_apply (v : TypeVar) : refl v = v := rfl

@[simp] theorem trans_apply (v : TypeVar) : π.trans ρ v = ρ (π v) := rfl

@[simp] theorem symm_apply (v : TypeVar) : π.symm (π v) = v := π.perm.symm_apply_apply v

@[simp] theorem apply_symm (v : TypeVar) : π (π.symm v) = v := π.perm.apply_symm_apply v

theorem apply_inj {v w : TypeVar} : π v = π w ↔ v = w := π.perm.apply_eq_iff_eq

theorem apply_mem_iff {vars : List TypeVar} (given : ∀ v ∈ vars, ¬v.MadeUp) (v : TypeVar) :
    π v ∈ vars ↔ v ∈ vars := by
  constructor
  · intro member
    have fixed : π (π v) = π v := π.given _ (given _ member)
    rwa [← (π.apply_inj).mp fixed]
  · intro member
    rwa [π.given v (given v member)]

/-- Send one made-up name to another. What was sent there goes where the first name went. -/
def send {a b : TypeVar} (madeA : a.MadeUp) (madeB : b.MadeUp) : Renaming where
  perm := π.perm.trans (Equiv.swap (π a) b)
  given v given := by
    have fixed : π v = v := π.given v given
    have notA : v ≠ a := fun equal => given (equal ▸ madeA)
    have notB : v ≠ b := fun equal => given (equal ▸ madeB)
    have apart : π v ≠ b := by rwa [fixed]
    exact (Equiv.swap_apply_of_ne_of_ne (mt π.apply_inj.mp notA) apart).trans fixed

private theorem send_self {a b : TypeVar} (madeA : a.MadeUp) (madeB : b.MadeUp) :
    π.send madeA madeB a = b :=
  Equiv.swap_apply_left (π a) b

private theorem send_of_ne {a b : TypeVar} (madeA : a.MadeUp) (madeB : b.MadeUp) {v : TypeVar}
    (notA : v ≠ a) (notB : π v ≠ b) : π.send madeA madeB v = π v :=
  Equiv.swap_apply_of_ne_of_ne (mt π.apply_inj.mp notA) notB

/-- Names that are new among the known ones, and new among what those become, can be paired in order
without a change to the known ones. -/
theorem exists_extension (known : TypeVar → Prop) (n : Nat) {new new' : Nat → TypeVar}
    (distinct : Function.Injective new) (distinct' : Function.Injective new')
    (made : ∀ i < n, (new i).MadeUp ∧ ¬known (new i))
    (made' : ∀ i < n, (new' i).MadeUp ∧ ∀ v, known v → π v ≠ new' i) :
    ∃ ρ : Renaming, (∀ v, known v → ρ v = π v) ∧ ∀ i < n, ρ (new i) = new' i := by
  induction n with
  | zero => exact ⟨π, fun _ _ => rfl, fun i below => absurd below (Nat.not_lt_zero i)⟩
  | succ n ih =>
    obtain ⟨ρ, keeps, pairs⟩ := ih (fun i below => made i (by omega))
      (fun i below => made' i (by omega))
    obtain ⟨madeUp, unknown⟩ := made n (Nat.lt_succ_self n)
    obtain ⟨madeUp', missed⟩ := made' n (Nat.lt_succ_self n)
    refine ⟨ρ.send madeUp madeUp', fun v here => ?_, fun i below => ?_⟩
    · have notNew : v ≠ new n := fun equal => unknown (equal ▸ here)
      rw [ρ.send_of_ne madeUp madeUp' notNew (keeps v here ▸ missed v here), keeps v here]
    · by_cases last : i = n
      · rw [last, ρ.send_self]
      · have earlier : ρ (new i) = new' i := pairs i (by omega)
        have apart : ρ (new i) ≠ new' n := earlier ▸ fun equal => last (distinct' equal)
        rw [ρ.send_of_ne madeUp madeUp' (fun equal => last (distinct equal)) apart, earlier]

end Renaming

namespace Term

mutual

def rename (f : TypeVar → TypeVar) : Term → Term
  | .con head args => .con head (renameAll f args)
  | .use v => .use (f v)
  | .scheme quantifier vars body => .scheme quantifier vars (body.rename f)
  | .func typeParams params result => .func typeParams (renameAll f params) (result.rename f)

def renameAll (f : TypeVar → TypeVar) : List Term → List Term
  | [] => []
  | t :: ts => t.rename f :: renameAll f ts

end

section Rename

variable (f g : TypeVar → TypeVar)

private theorem renameAll_eq_map (ts : List Term) : renameAll f ts = ts.map (rename f) := by
  induction ts with
  | nil => rfl
  | cons t ts ih => simp [renameAll, ih]

theorem rename_con (head : String) (args : List Term) :
    (con head args).rename f = con head (args.map (rename f)) := by
  rw [rename, renameAll_eq_map]

theorem rename_func (typeParams : List TypeVar) (params : List Term) (result : Term) :
    (func typeParams params result).rename f =
      func typeParams (params.map (rename f)) (result.rename f) := by
  rw [rename, renameAll_eq_map]

theorem rename_rename (t : Term) : (t.rename f).rename g = t.rename fun v => g (f v) := by
  induction t using Term.induct with
  | con head args ih =>
    rw [rename_con, rename_con, rename_con, List.map_map]
    exact congrArg (con head) (List.map_congr_left ih)
  | use v => rfl
  | scheme quantifier vars body ih => rw [rename, rename, ih, rename]
  | func typeParams params result ihParams ihResult =>
    rw [rename_func, rename_func, rename_func, List.map_map, ihResult]
    exact congrArg (func typeParams · _) (List.map_congr_left ihParams)

private theorem rename_id (t : Term) : t.rename (fun v => v) = t := by
  induction t using Term.induct with
  | con head args ih => rw [rename_con, List.map_congr_left ih, List.map_id']
  | use v => rfl
  | scheme quantifier vars body ih => rw [rename, ih]
  | func typeParams params result ihParams ihResult =>
    rw [rename_func, List.map_congr_left ihParams, List.map_id', ihResult]

private theorem rename_nullable (t : Term) : t.nullable.rename f = (t.rename f).nullable := by
  induction t using Term.induct with
  | con head args =>
    rw [nullable, rename_con, nullable]
    split
    · rw [rename_con]
    · rw [rename_con, List.map_singleton, rename_con]
  | use v => rw [nullable, rename_con, List.map_singleton, rename, nullable]
  | scheme quantifier vars body ih => rw [nullable, rename, ih, rename, nullable]
  | func typeParams params result =>
    rw [nullable, rename_con, List.map_singleton, rename, nullable]

private theorem rename_applied (head : String) (args : List Term) :
    (applied head args).rename f = applied head (args.map (rename f)) := by
  by_cases marked : head = nullableHead
  · subst marked
    cases args with
    | nil => rw [applied, rename_con] <;> simp [applied]
    | cons a rest =>
      cases rest with
      | nil => rw [applied_nullableHead, rename_nullable, List.map_singleton, applied_nullableHead]
      | cons b rest => simp [applied, rename_con]
  · rw [applied_of_ne marked, applied_of_ne marked, rename_con]

end Rename

theorem rename_refl (t : Term) : t.rename Renaming.refl = t := rename_id t

theorem rename_symm (π : Renaming) (t : Term) : (t.rename π).rename π.symm = t := by
  rw [rename_rename]
  simp only [Renaming.symm_apply]
  exact rename_id t

theorem rename_inj (π : Renaming) {a b : Term} : a.rename π = b.rename π ↔ a = b := by
  constructor
  · intro equal
    rw [← rename_symm π a, equal, rename_symm]
  · exact fun equal => equal ▸ rfl

theorem mem_freeVars_replace {f : TypeVar → Option Term} {shadow : List TypeVar} {t : Term}
    {w : TypeVar} (free : w ∈ (replace f shadow t).freeVars) :
    (w ∈ t.freeVars ∧ w ∈ shadow) ∨
      ∃ v ∈ t.freeVars, v ∉ shadow ∧ w ∈ ((f v).getD (use v)).freeVars := by
  induction t using Term.induct generalizing shadow with
  | con head args ih =>
    rw [replace_con, freeVars_applied, mem_freeVars_con] at free
    obtain ⟨b, member, inside⟩ := free
    obtain ⟨a, part, rfl⟩ := List.mem_map.mp member
    simp only [mem_freeVars_con]
    rcases ih a part inside with ⟨own, hidden⟩ | ⟨v, own, seen, image⟩
    · exact .inl ⟨⟨a, part, own⟩, hidden⟩
    · exact .inr ⟨v, ⟨a, part, own⟩, seen, image⟩
  | use v =>
    rw [replace] at free
    by_cases hidden : v ∈ shadow
    · rw [if_pos hidden] at free
      exact .inl ⟨free, List.mem_singleton.mp free ▸ hidden⟩
    · rw [if_neg hidden] at free
      exact .inr ⟨v, List.mem_singleton_self v, hidden, free⟩
  | scheme quantifier vars body ih =>
    rw [replace, mem_freeVars_scheme] at free
    simp only [mem_freeVars_scheme]
    rcases ih free.1 with ⟨own, hidden⟩ | ⟨v, own, seen, image⟩
    · exact .inl ⟨⟨own, free.2⟩, (List.mem_append.mp hidden).resolve_left free.2⟩
    · obtain ⟨unbound, outside⟩ := not_or.mp (mt List.mem_append.mpr seen)
      exact .inr ⟨v, ⟨own, unbound⟩, outside, image⟩
  | func typeParams params result ihParams ihResult =>
    rw [replace, replaceAll_eq_map, mem_freeVars_func_iff] at free
    simp only [mem_freeVars_func_iff]
    obtain ⟨⟨q, member, inside⟩, notParam⟩ := free
    have mapped : q ∈ (params ++ [result]).map (replace f (typeParams ++ shadow)) := by
      simpa using member
    obtain ⟨p, part, rfl⟩ := List.mem_map.mp mapped
    have ih : (w ∈ p.freeVars ∧ w ∈ typeParams ++ shadow) ∨
        ∃ v ∈ p.freeVars, v ∉ typeParams ++ shadow ∧ w ∈ ((f v).getD (use v)).freeVars := by
      rcases List.mem_append.mp part with inParams | isResult
      · exact ihParams p inParams inside
      · rw [List.mem_singleton.mp isResult] at inside ⊢
        exact ihResult inside
    rcases ih with ⟨own, hidden⟩ | ⟨v, own, seen, image⟩
    · exact .inl ⟨⟨⟨p, part, own⟩, notParam⟩, (List.mem_append.mp hidden).resolve_left notParam⟩
    · obtain ⟨unbound, outside⟩ := not_or.mp (mt List.mem_append.mpr seen)
      exact .inr ⟨v, ⟨⟨p, part, own⟩, unbound⟩, outside, image⟩

theorem exists_mem_freeVars_of_fill {θ : TypeVar → Term} {t : Term} {w : TypeVar}
    (free : w ∈ (t.fill θ).freeVars) : ∃ v ∈ t.freeVars, w ∈ (θ v).freeVars := by
  rcases mem_freeVars_replace free with ⟨-, hidden⟩ | ⟨v, own, -, image⟩
  · cases hidden
  · exact ⟨v, own, image⟩

/-! Plain terms. -/

/-- No binder binds a made-up name. -/
def Plain (t : Term) : Prop := t.Throughout fun u => ∀ v ∈ u.binder, ¬v.MadeUp

private theorem ofBinders_given : OfBinders fun u => ∀ v ∈ u.binder, ¬v.MadeUp where
  con _ _ := nofun
  use _ := nofun
  func given := given
  nullable given := given

theorem plain_use (v : TypeVar) : (use v).Plain := nofun

theorem plain_con {head : String} {args : List Term} :
    (con head args).Plain ↔ ∀ a ∈ args, a.Plain :=
  ofBinders_given.con_iff

theorem plain_scheme {quantifier : Quantifier} {vars : List TypeVar} {body : Term} :
    (scheme quantifier vars body).Plain ↔ (∀ v ∈ vars, ¬v.MadeUp) ∧ body.Plain :=
  Iff.rfl

theorem plain_func {typeParams : List TypeVar} {params : List Term} {result : Term} :
    (func typeParams params result).Plain ↔
      (∀ v ∈ typeParams, ¬v.MadeUp) ∧ ∀ p ∈ params ++ [result], p.Plain :=
  throughout_func

theorem Plain.fill {θ : TypeVar → Term} {t : Term} (plain : t.Plain)
    (images : ∀ v ∈ t.freeVars, (θ v).Plain) : (t.fill θ).Plain :=
  ofBinders_given.replace (fun _ given => given) plain fun v free _ => images v free

/-! Renaming plain terms. -/

variable {π ρ : Renaming}

theorem Plain.rename {f : TypeVar → TypeVar} {t : Term} (plain : t.Plain) : (t.rename f).Plain := by
  induction t using Term.induct with
  | con head args ih =>
    rw [rename_con]
    exact plain_con.mpr (List.forall_mem_map.mpr fun a member =>
      ih a member (plain_con.mp plain a member))
  | use v => exact plain_use (f v)
  | scheme quantifier vars body ih => exact ⟨plain.1, ih plain.2⟩
  | func typeParams params result ihParams ihResult =>
    obtain ⟨given, parts⟩ := plain_func.mp plain
    rw [rename_func]
    refine plain_func.mpr ⟨given, List.forall_mem_append.mpr
      ⟨List.forall_mem_map.mpr fun p member => ?_, List.forall_mem_singleton.mpr ?_⟩⟩
    · exact ihParams p member (parts p (List.mem_append_left _ member))
    · exact ihResult (parts result (by simp))

theorem Plain.freeVars_rename {t : Term} (plain : t.Plain) :
    (t.rename π).freeVars = t.freeVars.map π := by
  have filtered {vars free : List TypeVar} (given : ∀ v ∈ vars, ¬v.MadeUp) :
      (free.map π).filter (· ∉ vars) = (free.filter (· ∉ vars)).map π := by
    rw [List.filter_map]
    congr 1
    exact List.filter_congr fun v _ => by simp [π.apply_mem_iff given v]
  have flat {ts : List Term} (each : ∀ t ∈ ts, (t.rename π).freeVars = t.freeVars.map π) :
      freeVarsAll (ts.map (Term.rename π)) = (freeVarsAll ts).map π := by
    rw [freeVarsAll_eq_flatMap, freeVarsAll_eq_flatMap, List.flatMap_map, List.map_flatMap,
      List.flatMap_def, List.flatMap_def, List.map_congr_left each]
  induction t using Term.induct with
  | con head args ih =>
    rw [rename_con, freeVars, freeVars, flat fun a member => ih a member (plain_con.mp plain a member)]
  | use v => rfl
  | scheme quantifier vars body ih =>
    obtain ⟨given, inner⟩ := plain_scheme.mp plain
    rw [Term.rename, freeVars, ih inner, freeVars, filtered given]
  | func typeParams params result ihParams ihResult =>
    obtain ⟨given, parts⟩ := plain_func.mp plain
    rw [rename_func, freeVars, freeVars, flat fun p member =>
      ihParams p member (parts p (List.mem_append_left _ member)),
      ihResult (parts result (by simp)), ← List.map_append, filtered given]

theorem Plain.rename_congr {t : Term} (plain : t.Plain) (agree : ∀ v ∈ t.freeVars, π v = ρ v) :
    t.rename π = t.rename ρ := by
  have under {vars free : List TypeVar} (given : ∀ v ∈ vars, ¬v.MadeUp)
      (outer : ∀ v ∈ free, v ∉ vars → π v = ρ v) : ∀ v ∈ free, π v = ρ v := by
    intro v member
    by_cases bound : v ∈ vars
    · exact (π.given v (given v bound)).trans (ρ.given v (given v bound)).symm
    · exact outer v member bound
  induction t using Term.induct with
  | con head args ih =>
    rw [rename_con, rename_con]
    congr 1
    exact List.map_congr_left fun a member => ih a member (plain_con.mp plain a member)
      fun v free => agree v (mem_freeVars_con.mpr ⟨a, member, free⟩)
  | use v => exact congrArg use (agree v (List.mem_singleton_self v))
  | scheme quantifier vars body ih =>
    rw [Term.rename, Term.rename, ih plain.2 (under plain.1 fun v free unbound =>
      agree v (mem_freeVars_scheme.mpr ⟨free, unbound⟩))]
  | func typeParams params result ihParams ihResult =>
    obtain ⟨given, parts⟩ := plain_func.mp plain
    have each : ∀ p ∈ params ++ [result], ∀ v ∈ p.freeVars, π v = ρ v := fun p member =>
      under given fun v free unbound =>
        agree v (mem_freeVars_func_iff.mpr ⟨⟨p, member, free⟩, unbound⟩)
    rw [rename_func, rename_func]
    congr 1
    · refine List.map_congr_left fun p member => ?_
      have inside := List.mem_append_left [result] member
      exact ihParams p member (parts p inside) (each p inside)
    · exact ihResult (parts result (by simp)) (each result (by simp))

private theorem Plain.rename_replace {f g : TypeVar → Option Term} {shadow : List TypeVar}
    {t : Term} (plain : t.Plain) (hidden : ∀ v ∈ shadow, ¬v.MadeUp)
    (images : ∀ v ∈ t.freeVars, v ∉ shadow →
      ((f v).getD (use v)).rename π = (g (π v)).getD (use (π v))) :
    (t.replace f shadow).rename π = (t.rename π).replace g shadow := by
  induction t using Term.induct generalizing shadow with
  | con head args ih =>
    rw [replace_con, rename_applied, rename_con, replace_con, List.map_map, List.map_map]
    congr 1
    exact List.map_congr_left fun a member => ih a member (plain_con.mp plain a member) hidden
      fun v free => images v (mem_freeVars_con.mpr ⟨a, member, free⟩)
  | use v =>
    rw [Term.replace, Term.rename, Term.replace]
    by_cases inside : v ∈ shadow
    · rw [if_pos inside, if_pos ((π.apply_mem_iff hidden v).mpr inside), Term.rename]
    · rw [if_neg inside, if_neg (mt (π.apply_mem_iff hidden v).mp inside)]
      exact images v (List.mem_singleton_self v) inside
  | scheme quantifier vars body ih =>
    rw [Term.replace, Term.rename, Term.rename, Term.replace]
    congr 1
    refine ih plain.2 (List.forall_mem_append.mpr ⟨plain.1, hidden⟩) fun v free seen => ?_
    obtain ⟨unbound, outside⟩ := not_or.mp (mt List.mem_append.mpr seen)
    exact images v (mem_freeVars_scheme.mpr ⟨free, unbound⟩) outside
  | func typeParams params result ihParams ihResult =>
    obtain ⟨given, parts⟩ := plain_func.mp plain
    have hidden' := List.forall_mem_append.mpr ⟨given, hidden⟩
    have images' : ∀ p ∈ params ++ [result], ∀ v ∈ p.freeVars, v ∉ typeParams ++ shadow →
        ((f v).getD (use v)).rename π = (g (π v)).getD (use (π v)) := by
      intro p member v free seen
      obtain ⟨unbound, outside⟩ := not_or.mp (mt List.mem_append.mpr seen)
      exact images v (mem_freeVars_func_iff.mpr ⟨⟨p, member, free⟩, unbound⟩) outside
    rw [Term.replace, replaceAll_eq_map, rename_func, rename_func, Term.replace, replaceAll_eq_map,
      List.map_map, List.map_map]
    congr 1
    · refine List.map_congr_left fun p member => ?_
      have inside := List.mem_append_left [result] member
      exact ihParams p member (parts p inside) hidden' (images' p inside)
    · exact ihResult (parts result (by simp)) hidden' (images' result (by simp))

theorem Plain.rename_fill {θ η : TypeVar → Term} {t : Term} (plain : t.Plain)
    (images : ∀ v ∈ t.freeVars, (θ v).rename π = η (π v)) :
    (t.fill θ).rename π = (t.rename π).fill η :=
  plain.rename_replace (fun _ member => absurd member List.not_mem_nil) fun v free _ => images v free

end Term

end TypedCalls
