import Mathlib.Data.List.Forall2
import TypedCalls.Proofs.Term.Throughout
import TypedCalls.Proofs.Typer.Fresh

/-!
Terms that differ in the names of bound variables.

`AlphaUnder ρ` relates terms that are built alike, with `ρ` between their free variables; a binder
relates the variables it binds place by place and hides what `ρ` says of them. With equality between
the free variables this is renaming of bound variables without capture (`Alpha`). Such terms have
the same size, and putting names that no binder binds for related variables keeps them related
(`AlphaUnder.replace`).
-/

set_option autoImplicit false

namespace TypedCalls.Term

theorem WellFormed.throughout {t : Term} (wellFormed : t.WellFormed) :
    t.Throughout WellFormedHere := by
  induction t using Term.induct with
  | con head args ih =>
    exact throughout_con.mpr ⟨wellFormed.1, fun a member =>
      ih a member (wellFormedAll_iff.mp wellFormed.2 a member)⟩
  | use v => trivial
  | scheme quantifier vars body ih => exact ⟨wellFormed.1, ih wellFormed.2⟩
  | func typeParams params result ihParams ihResult =>
    exact ⟨wellFormed.1, throughoutAll_iff.mpr fun p member =>
      ihParams p member (wellFormedAll_iff.mp wellFormed.2.1 p member), ihResult wellFormed.2.2⟩

def ownNames : Term → List TypeVar
  | .use v => [v]
  | t => t.binder

theorem mem_ownNames_of_binder {t : Term} {v : TypeVar} (bound : v ∈ t.binder) :
    v ∈ t.ownNames := by
  cases t with
  | use w => cases bound
  | con head args => exact bound
  | scheme quantifier vars body => exact bound
  | func typeParams params result => exact bound

theorem WellFormedHere.nodup {t : Term} (here : t.WellFormedHere) : t.binder.Nodup := by
  cases t with
  | con head args => exact List.nodup_nil
  | use v => exact List.nodup_nil
  | scheme quantifier vars body => exact here.2
  | func typeParams params result => exact here

/-- The term is not an existential quantifier right over a variable. -/
def Guarded (t : Term) : Prop := ∀ vars v, t ≠ scheme .some vars (use v)

/-- The variables of a binder are different and not made up. -/
structure Openable (vars : List TypeVar) : Prop where
  distinct : vars.Nodup
  given : ∀ v ∈ vars, ¬v.MadeUp

/-- What is asked of one binder. -/
structure TameHere (t : Term) : Prop where
  openable : Openable t.binder
  guarded : t.Guarded

/-- Binders bind different names that are not made up, and no existential quantifier stands right
over a variable. -/
def Tame (t : Term) : Prop := t.Throughout TameHere

private theorem openable_nil : Openable [] := ⟨List.nodup_nil, by simp⟩

private theorem tame_use (v : TypeVar) : (use v).Tame := ⟨openable_nil, by simp [Guarded]⟩

theorem tame_func {typeParams : List TypeVar} {params : List Term} {result : Term} :
    (func typeParams params result).Tame ↔
      Openable typeParams ∧ ∀ p ∈ params ++ [result], p.Tame := by
  refine throughout_func.trans (and_congr_left fun _ => ⟨TameHere.openable, fun openable => ?_⟩)
  exact ⟨openable, by simp [Guarded]⟩

theorem tame_scheme {quantifier : Quantifier} {vars : List TypeVar} {body : Term} :
    (scheme quantifier vars body).Tame ↔
      Openable vars ∧ (quantifier = .some → ∀ v, body ≠ use v) ∧ body.Tame := by
  have guarded : (scheme quantifier vars body).Guarded ↔
      (quantifier = .some → ∀ v, body ≠ use v) := by
    constructor
    · rintro guarded rfl v rfl
      exact guarded vars v rfl
    · rintro shape ws v equal
      injection equal with quantifiers _ bodies
      exact shape quantifiers v bodies
  rw [← guarded, ← and_assoc]
  exact and_congr_left fun _ => ⟨fun here => ⟨here.openable, here.guarded⟩, fun here =>
    ⟨here.1, here.2⟩⟩

/-! Tame terms stay tame. -/

private theorem nullable_ne_use (t : Term) (v : TypeVar) : t.nullable ≠ use v := by
  cases t with
  | con head args =>
    rw [nullable]
    split <;> simp
  | use w => simp [nullable]
  | scheme quantifier vars body => simp [nullable]
  | func typeParams params result => simp [nullable]

private theorem applied_ne_use (head : String) (args : List Term) (v : TypeVar) :
    applied head args ≠ use v := by
  unfold applied
  split
  · split
    · exact nullable_ne_use _ v
    · simp
  · simp

theorem exists_use_of_replace {f : TypeVar → Option Term} {shadow : List TypeVar} {t : Term}
    {v : TypeVar} (equal : replace f shadow t = use v) : ∃ w, t = use w := by
  cases t with
  | con head args =>
    rw [replace] at equal
    exact absurd equal (applied_ne_use _ _ v)
  | use w => exact ⟨w, rfl⟩
  | scheme quantifier vars body => cases equal
  | func typeParams params result => cases equal

private theorem ofBinders_tameHere : OfBinders TameHere where
  con _ _ := ⟨openable_nil, by simp [Guarded]⟩
  use v := tame_use v
  func here := ⟨here.openable, by simp [Guarded]⟩
  nullable {_ _ body} here := by
    refine ⟨here.openable, fun vars v equal => ?_⟩
    injection equal with _ _ bodies
    exact nullable_ne_use body v bodies

theorem tame_con {head : String} {args : List Term} :
    (con head args).Tame ↔ ∀ a ∈ args, a.Tame :=
  ofBinders_tameHere.con_iff

theorem Tame.replace {f : TypeVar → Option Term} (vars : ∀ v u, f v = some u → ∃ w, u = use w)
    {shadow : List TypeVar} {t : Term} (tame : t.Tame) : (t.replace f shadow).Tame := by
  refine ofBinders_tameHere.replace (fun {_ _ body} shadow here => ?_) tame fun v _ _ => ?_
  · refine ⟨here.openable, fun ws v equal => ?_⟩
    injection equal with existential names bodies
    obtain ⟨w, rfl⟩ := exists_use_of_replace bodies
    exact here.guarded _ w (by rw [existential])
  · cases image : f v with
    | none => exact tame_use v
    | some u =>
      obtain ⟨w, rfl⟩ := vars v u image
      exact tame_use w

/-! Renaming of bound variables. -/

/-- What two binders make of a relation between variables: the variables at the same place of both
are related, and those that neither binds are related as before. -/
def Binding (vs ws : List TypeVar) (ρ : TypeVar → TypeVar → Prop) (v w : TypeVar) : Prop :=
  (∃ i : Nat, vs[i]? = some v ∧ ws[i]? = some w) ∨ (v ∉ vs ∧ w ∉ ws ∧ ρ v w)

private theorem Binding.mono {vs ws : List TypeVar} {ρ σ : TypeVar → TypeVar → Prop}
    (le : ∀ v w, ρ v w → σ v w) {v w : TypeVar} (related : Binding vs ws ρ v w) :
    Binding vs ws σ v w :=
  related.imp id fun outside => ⟨outside.1, outside.2.1, le v w outside.2.2⟩

mutual

/-- Terms that are built alike, with `ρ` between their free variables and with binders that may bind
other names. -/
inductive AlphaUnder : (TypeVar → TypeVar → Prop) → Term → Term → Prop
  | con {ρ : TypeVar → TypeVar → Prop} {head : String} {as bs : List Term}
      (parts : AlphaAll ρ as bs) : AlphaUnder ρ (.con head as) (.con head bs)
  | use {ρ : TypeVar → TypeVar → Prop} {v w : TypeVar} (related : ρ v w) :
      AlphaUnder ρ (.use v) (.use w)
  | scheme {ρ : TypeVar → TypeVar → Prop} {quantifier : Quantifier} {vs ws : List TypeVar}
      {s t : Term} (places : vs.length = ws.length) (body : AlphaUnder (Binding vs ws ρ) s t) :
      AlphaUnder ρ (.scheme quantifier vs s) (.scheme quantifier ws t)
  | func {ρ : TypeVar → TypeVar → Prop} {vs ws : List TypeVar} {ps qs : List Term} {s t : Term}
      (places : vs.length = ws.length) (params : AlphaAll (Binding vs ws ρ) ps qs)
      (result : AlphaUnder (Binding vs ws ρ) s t) : AlphaUnder ρ (.func vs ps s) (.func ws qs t)

inductive AlphaAll : (TypeVar → TypeVar → Prop) → List Term → List Term → Prop
  | nil {ρ : TypeVar → TypeVar → Prop} : AlphaAll ρ [] []
  | cons {ρ : TypeVar → TypeVar → Prop} {a b : Term} {as bs : List Term}
      (head : AlphaUnder ρ a b) (tail : AlphaAll ρ as bs) : AlphaAll ρ (a :: as) (b :: bs)

end

/-- The second term is obtained from the first by renaming bound variables without capture. -/
def Alpha (a b : Term) : Prop := AlphaUnder Eq a b

theorem alphaAll_iff {ρ : TypeVar → TypeVar → Prop} {as bs : List Term} :
    AlphaAll ρ as bs ↔ List.Forall₂ (AlphaUnder ρ) as bs := by
  constructor
  · intro all
    induction as generalizing bs with
    | nil =>
      cases all
      exact .nil
    | cons a as ih =>
      cases all with
      | cons head tail => exact .cons head (ih tail)
  · intro all
    induction all with
    | nil => exact .nil
    | cons head _ ih => exact .cons head ih

@[elab_as_elim]
theorem AlphaUnder.induction
    {motive : (ρ : TypeVar → TypeVar → Prop) → (a b : Term) → AlphaUnder ρ a b → Prop}
    (con : ∀ {ρ head as bs} (parts : AlphaAll ρ as bs),
      List.Forall₂ (fun a b => ∃ part, motive ρ a b part) as bs →
      motive ρ (.con head as) (.con head bs) (.con parts))
    (use : ∀ {ρ : TypeVar → TypeVar → Prop} {v w} (related : ρ v w),
      motive ρ (.use v) (.use w) (.use related))
    (scheme : ∀ {ρ quantifier vs ws s t} (places : vs.length = ws.length)
      (body : AlphaUnder (Binding vs ws ρ) s t), motive (Binding vs ws ρ) s t body →
      motive ρ (.scheme quantifier vs s) (.scheme quantifier ws t) (.scheme places body))
    (func : ∀ {ρ vs ws ps qs s t} (places : vs.length = ws.length)
      (params : AlphaAll (Binding vs ws ρ) ps qs) (result : AlphaUnder (Binding vs ws ρ) s t),
      List.Forall₂ (fun a b => ∃ part, motive (Binding vs ws ρ) a b part) ps qs →
      motive (Binding vs ws ρ) s t result →
      motive ρ (.func vs ps s) (.func ws qs t) (.func places params result))
    {ρ : TypeVar → TypeVar → Prop} {a b : Term} (alpha : AlphaUnder ρ a b) :
    motive ρ a b alpha :=
  @AlphaUnder.rec motive
    (fun ρ as bs _ => List.Forall₂ (fun a b => ∃ part, motive ρ a b part) as bs)
    con use scheme func .nil (fun head _ ih tail => .cons ⟨head, ih⟩ tail) ρ a b alpha

section Related

variable {ρ σ : TypeVar → TypeVar → Prop} {a b : Term}

theorem AlphaUnder.mono (alpha : AlphaUnder ρ a b) (le : ∀ v w, ρ v w → σ v w) :
    AlphaUnder σ a b := by
  induction alpha using AlphaUnder.induction generalizing σ with
  | con _ parts =>
    exact .con (alphaAll_iff.mpr (parts.imp fun _ _ part => part.elim fun _ ih => ih le))
  | use related => exact .use (le _ _ related)
  | scheme places _ ih => exact .scheme places (ih fun _ _ => Binding.mono le)
  | func places _ _ params ih =>
    refine .func places (alphaAll_iff.mpr (params.imp fun _ _ part => ?_))
      (ih fun _ _ => Binding.mono le)
    exact part.elim fun _ ih => ih fun _ _ => Binding.mono le

private theorem sizeAll_eq_of_forall₂ {as bs : List Term}
    (sizes : List.Forall₂ (fun a b => a.size = b.size) as bs) : sizeAll as = sizeAll bs := by
  induction sizes with
  | nil => rfl
  | cons head _ ih => rw [sizeAll, sizeAll, head, ih]

theorem AlphaUnder.size_eq (alpha : AlphaUnder ρ a b) : a.size = b.size := by
  induction alpha using AlphaUnder.induction with
  | con _ parts =>
    rw [size, size, sizeAll_eq_of_forall₂ (parts.imp fun _ _ part => part.elim fun _ ih => ih)]
  | use related => rfl
  | scheme places _ ih => rw [size, size, places, ih]
  | func places _ _ params ih =>
    rw [size, size, places, ih,
      sizeAll_eq_of_forall₂ (params.imp fun _ _ part => part.elim fun _ ih => ih)]

theorem AlphaUnder.guarded (alpha : AlphaUnder ρ a b) (guarded : a.Throughout Guarded) :
    b.Throughout Guarded := by
  have others {as bs : List Term}
      (parts : List.Forall₂ (fun a b => a.Throughout Guarded → b.Throughout Guarded) as bs)
      (all : ThroughoutAll Guarded as) : ThroughoutAll Guarded bs := by
    induction parts with
    | nil => trivial
    | cons head _ ih => exact ⟨head all.1, ih all.2⟩
  induction alpha using AlphaUnder.induction with
  | con _ parts =>
    refine ⟨by simp [Guarded], others (parts.imp fun _ _ part => ?_) guarded.2⟩
    exact part.elim fun _ ih => ih
  | use related => simp [Throughout, Guarded]
  | @scheme ρ quantifier vs ws s t _ body ih =>
    refine ⟨fun us w equal => ?_, ih guarded.2⟩
    injection equal with quantifiers _ bodies
    subst bodies
    cases body with
    | use _ => exact guarded.1 vs _ (congrArg (Term.scheme · vs (.use _)) quantifiers)
  | func _ _ _ params ih =>
    refine ⟨by simp [Guarded], others (params.imp fun _ _ part => ?_) guarded.2.1, ih guarded.2.2⟩
    exact part.elim fun _ ih => ih

private theorem AlphaUnder.nullable (alpha : AlphaUnder ρ a b) :
    AlphaUnder ρ a.nullable b.nullable := by
  induction alpha using AlphaUnder.induction with
  | con parts =>
    rw [Term.nullable, Term.nullable]
    split
    · exact .con parts
    · exact .con (.cons (.con parts) .nil)
  | use related => exact .con (.cons (.use related) .nil)
  | scheme places _ ih => exact .scheme places ih
  | func places params result => exact .con (.cons (.func places params result) .nil)

private theorem alphaUnder_applied {head : String} {as bs : List Term} (parts : AlphaAll ρ as bs) :
    AlphaUnder ρ (applied head as) (applied head bs) := by
  cases parts with
  | nil => exact .con .nil
  | cons first rest =>
    cases rest with
    | nil =>
      rw [applied, applied]
      split
      · exact first.nullable
      · exact .con (.cons first .nil)
    | cons second rest => exact .con (.cons first (.cons second rest))

def Renames (f : TypeVar → Option Term) (shadow : List TypeVar) (v v' : TypeVar) : Prop :=
  (use v).replace f shadow = use v' ∧ (v' = v ∨ v'.MadeUp)

private theorem Renames.under {f : TypeVar → Option Term} {shadow vars : List TypeVar}
    {v v' : TypeVar} (renames : Renames f shadow v v') (unbound : v ∉ vars)
    (given : ∀ x ∈ vars, ¬x.MadeUp) :
    Renames f (vars ++ shadow) v v' ∧ v' ∉ vars := by
  refine ⟨⟨?_, renames.2⟩, fun inside => ?_⟩
  · rw [← renames.1, replace, replace]
    simp only [List.mem_append, unbound, false_or]
  · rcases renames.2 with same | made
    · exact unbound (same ▸ inside)
    · exact given v' inside made

private theorem renames_of_mem {f : TypeVar → Option Term} {shadow : List TypeVar} {v : TypeVar}
    (hidden : v ∈ shadow) : Renames f shadow v v :=
  ⟨by rw [replace, if_pos hidden], .inl rfl⟩

def Carries (f g : TypeVar → Option Term) (shadow shadow' : List TypeVar)
    (ρ σ : TypeVar → TypeVar → Prop) : Prop :=
  ∀ v w, ρ v w → ∃ v' w', Renames f shadow v v' ∧ Renames g shadow' w w' ∧ σ v' w'

private theorem Carries.under {f g : TypeVar → Option Term} {shadow shadow' vs ws : List TypeVar}
    (carries : Carries f g shadow shadow' ρ σ) (givenV : ∀ x ∈ vs, ¬x.MadeUp)
    (givenW : ∀ x ∈ ws, ¬x.MadeUp) :
    Carries f g (vs ++ shadow) (ws ++ shadow') (Binding vs ws ρ) (Binding vs ws σ) := by
  rintro v w (⟨i, atV, atW⟩ | ⟨freeV, freeW, related⟩)
  · exact ⟨v, w, renames_of_mem (List.mem_append_left _ (List.mem_of_getElem? atV)),
      renames_of_mem (List.mem_append_left _ (List.mem_of_getElem? atW)), .inl ⟨i, atV, atW⟩⟩
  · obtain ⟨v', w', renamesV, renamesW, related'⟩ := carries v w related
    obtain ⟨underV, freeV'⟩ := renamesV.under freeV givenV
    obtain ⟨underW, freeW'⟩ := renamesW.under freeW givenW
    exact ⟨v', w', underV, underW, .inr ⟨freeV', freeW', related'⟩⟩

/-- If related variables get related names, which no binder can catch because they are made up, the
terms stay related. -/
theorem AlphaUnder.replace {f g : TypeVar → Option Term} {shadow shadow' : List TypeVar}
    (alpha : AlphaUnder ρ a b) (tameA : a.Tame) (tameB : b.Tame)
    (carries : Carries f g shadow shadow' ρ σ) :
    AlphaUnder σ (a.replace f shadow) (b.replace g shadow') := by
  have others {σ : TypeVar → TypeVar → Prop} {shadow shadow' : List TypeVar} {as bs : List Term}
      (parts : List.Forall₂ (fun a b => a.Tame → b.Tame → AlphaUnder σ (a.replace f shadow)
        (b.replace g shadow')) as bs) (tameA : ThroughoutAll TameHere as)
      (tameB : ThroughoutAll TameHere bs) :
      AlphaAll σ (replaceAll f shadow as) (replaceAll g shadow' bs) := by
    induction parts with
    | nil => exact .nil
    | cons head _ ih => exact .cons (head tameA.1 tameB.1) (ih tameA.2 tameB.2)
  induction alpha using AlphaUnder.induction generalizing σ shadow shadow' with
  | con _ parts =>
    refine alphaUnder_applied (others (parts.imp fun _ _ part => ?_) tameA.2 tameB.2)
    exact part.elim fun _ ih tameA tameB => ih tameA tameB carries
  | use related =>
    obtain ⟨v', w', renamesV, renamesW, related'⟩ := carries _ _ related
    rw [renamesV.1, renamesW.1]
    exact .use related'
  | scheme places _ ih =>
    have inner := carries.under tameA.1.openable.given tameB.1.openable.given
    exact .scheme places (ih tameA.2 tameB.2 inner)
  | func places _ _ params ih =>
    have inner := carries.under tameA.1.openable.given tameB.1.openable.given
    refine .func places (others (params.imp fun _ _ part => ?_) tameA.2.1 tameB.2.1)
      (ih tameA.2.2 tameB.2.2 inner)
    exact part.elim fun _ ih tameA tameB => ih tameA tameB inner

end Related

end TypedCalls.Term
