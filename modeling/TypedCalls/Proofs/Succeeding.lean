import Mathlib.Data.List.Forall2
import Mathlib.Tactic.Common

/-!
What a success says of the steps that led to it, for computations that may fail.
-/

set_option autoImplicit false

namespace TypedCalls

variable {ε σ α γ : Type}

theorem bind_eq_ok {work : EStateM ε σ α} {next : α → EStateM ε σ γ} {s s' : σ} {c : γ}
    (success : (work >>= next) s = .ok c s') :
    ∃ a mid, work s = .ok a mid ∧ next a mid = .ok c s' := by
  change EStateM.bind work next s = .ok c s' at success
  unfold EStateM.bind at success
  cases first : work s with
  | ok a mid =>
    rw [first] at success
    exact ⟨a, mid, rfl, success⟩
  | error failure mid =>
    rw [first] at success
    cases success

theorem exists_ok_of_run' {work : EStateM ε σ α} {s : σ} {f : α → γ} {c : γ}
    (ran : (work.run' s).map f = some c) : ∃ a s', work s = .ok a s' ∧ f a = c := by
  unfold EStateM.run' EStateM.run at ran
  cases done : work s with
  | ok a s' =>
    rw [done] at ran
    exact ⟨a, s', rfl, Option.some.inj ran⟩
  | error failure s' =>
    rw [done] at ran
    cases ran

theorem Except.bind_eq_ok {x : Except ε α} {f : α → Except ε γ} {c : γ}
    (ran : x >>= f = .ok c) : ∃ a, x = .ok a ∧ f a = .ok c := by
  cases x with
  | error e => cases ran
  | ok a => exact ⟨a, rfl, ran⟩

theorem Except.map_eq_ok {x : Except ε α} {f : α → γ} {c : γ} (ran : x.map f = .ok c) :
    ∃ a, x = .ok a ∧ f a = c := by
  cases x with
  | error e => cases ran
  | ok a => exact ⟨a, rfl, Except.ok.inj ran⟩

theorem forall₂_of_mapM_ok {f : α → Except ε γ} {xs : List α} {ys : List γ}
    (ran : xs.mapM f = .ok ys) : List.Forall₂ (fun x y => f x = .ok y) xs ys := by
  induction xs generalizing ys with
  | nil =>
    rw [List.mapM_nil] at ran
    cases ran
    exact .nil
  | cons x xs ih =>
    rw [List.mapM_cons] at ran
    obtain ⟨y, here, rest⟩ := Except.bind_eq_ok ran
    obtain ⟨others, later, equal⟩ := Except.bind_eq_ok rest
    cases equal
    exact .cons here (ih later)

theorem eq_map_ok_of_mapM {parts : List (Except ε α)} {values : List α}
    (ran : parts.mapM id = .ok values) : parts = values.map .ok := by
  have each : List.Forall₂ (fun part whole => part = whole) parts (values.map .ok) :=
    List.forall₂_map_right_iff.mpr (forall₂_of_mapM_ok ran)
  exact List.forall₂_eq_eq_eq ▸ each

theorem forall₂_of_mapM_some {f : α → Option γ} {xs : List α} {ys : List γ}
    (ran : xs.mapM f = some ys) : List.Forall₂ (fun x y => f x = some y) xs ys := by
  induction xs generalizing ys with
  | nil =>
    rw [List.mapM_nil] at ran
    cases ran
    exact .nil
  | cons x xs ih =>
    rw [List.mapM_cons] at ran
    obtain ⟨y, here, rest⟩ := Option.bind_eq_some_iff.mp ran
    obtain ⟨others, later, equal⟩ := Option.bind_eq_some_iff.mp rest
    cases equal
    exact .cons here (ih later)

theorem forall_mem_of_forall₂ {R : α → γ → Prop} {P : γ → Prop} {xs : List α} {ys : List γ}
    (related : List.Forall₂ R xs ys) (each : ∀ x ∈ xs, ∀ y, R x y → P y) : ∀ y ∈ ys, P y := by
  induction related with
  | nil => exact fun y member => absurd member List.not_mem_nil
  | cons here _ ih =>
    obtain ⟨first, rest⟩ := List.forall_mem_cons.mp each
    exact List.forall_mem_cons.mpr ⟨first _ here, ih rest⟩

theorem mem_of_filterAuxM {f : α → Except ε Bool} {xs kept ys : List α}
    (ran : xs.filterAuxM f kept = .ok ys) :
    (∀ x ∈ kept, x ∈ ys) ∧ ∀ x ∈ xs, f x = .ok false ∨ x ∈ ys := by
  induction xs generalizing kept with
  | nil =>
    cases ran
    exact ⟨fun _ => id, fun x member => absurd member List.not_mem_nil⟩
  | cons x xs ih =>
    rw [List.filterAuxM] at ran
    obtain ⟨b, here, rest⟩ := Except.bind_eq_ok ran
    obtain ⟨old, new⟩ := ih rest
    cases b with
    | true =>
      obtain ⟨first, others⟩ := List.forall_mem_cons.mp old
      exact ⟨others, List.forall_mem_cons.mpr ⟨.inr first, new⟩⟩
    | false => exact ⟨old, List.forall_mem_cons.mpr ⟨.inl here, new⟩⟩

theorem filterAuxM_of_forall {f : α → Except ε Bool} {xs kept : List α}
    (rejects : ∀ x ∈ xs, f x = .ok false) : xs.filterAuxM f kept = .ok kept := by
  induction xs with
  | nil => rfl
  | cons x xs ih =>
    obtain ⟨here, there⟩ := List.forall_mem_cons.mp rejects
    rw [List.filterAuxM, here]
    exact ih there

theorem filterM_eq_ok {f : α → Except ε Bool} {test : α → Bool} {xs : List α}
    (tested : ∀ x ∈ xs, f x = .ok (test x)) : xs.filterM f = .ok (xs.filter test) := by
  have kept (ys : List α) : xs.filterAuxM f ys = .ok ((xs.filter test).reverse ++ ys) := by
    induction xs generalizing ys with
    | nil => rfl
    | cons x xs ih =>
      obtain ⟨here, there⟩ := List.forall_mem_cons.mp tested
      rw [List.filterAuxM, here]
      refine (ih there _).trans ?_
      cases accepted : test x with
      | true => simp [accepted]
      | false => simp [accepted]
  rw [List.filterM, kept []]
  simp [bind, Except.bind, pure, Except.pure]

end TypedCalls
